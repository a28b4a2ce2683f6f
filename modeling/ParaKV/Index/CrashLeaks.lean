/- GID: ParaKV/Index/CrashLeaks
   source: parakv/core/index/index.cc, parakv/core/segment/segment_file.cc
   digest: Crashes of Put and Delete, and the slots that no recovered entry refers to. -/

import ParaKV.Index.CompactionRuns

set_option autoImplicit false

namespace ParaKV.Index.CrashLeaks

open Lib.LogMap Lib.OwnedSlots Lib.StepRun Index.Key Index.Wal Index.Operations Index.Durability
open Index.Ownership Index.CrashSafety Index.Recovery Index.Runs Index.CompactionRuns Segment
open Segment.Base Segment.FileSpec Core.State

variable {K : Type} [DecidableEq K] [KeyType K]
variable {o : Options} {w : World K} {d : Disk K} {m : Map K}

/-- Files whose occupied slots are all referenced by the map they hold. -/
def Sealed (o : Options) (d : Disk K) : Prop :=
  ∃ m, CrashSafe o (fun _ _ => True) d m ∧ Fills (entries m) (view o d)

theorem Filled.sealed (h : Filled o w) : Sealed o w.disk := ⟨w.map, h.1.crashSafe, h.2⟩

theorem sealed_untouched {d' : Disk K} (h : Sealed o d) (htouch : Touches NoSlot Nothing d d') :
    Sealed o d' := by
  obtain ⟨m, hsafe, hfills⟩ := h
  have hview : view o d' = view o d := by
    funext a
    refine touches_view_eq htouch ?_
    rintro ⟨_, _, hnone, -⟩
    exact hnone
  exact ⟨m, hsafe.clear htouch (avoids_noSlot _), hview ▸ hfills⟩

theorem sealed_logEvent {e : Event K} (h : LogEvent o w (· = m) e)
    (hlive : Live o (fun _ _ => True) w) (howns : Owns (entries m) (view o w.disk))
    (hfills : Fills (entries m) (view o w.disk)) : Sealed o e.world.disk := by
  have himages := h.images
  obtain ⟨m', rfl, hsafe⟩ := crashSafe_logEvent h hlive fun m' hm' => hm' ▸ howns
  exact ⟨m', hsafe, view_congr (o := o) himages ▸ hfills⟩

/-! A start over such files. -/

theorem starts_sealed (hadm : o.Admissible K) (hpath : o.walPath ≠ "") (h : Sealed o d) :
    Starts o (Filled o) (Sealed o) d := by
  obtain ⟨m, hsafe, hfills⟩ := h
  obtain ⟨-, hsafe', ⟨hview, -⟩, hok, -⟩ := openStore_spec hadm hpath hsafe
  refine ⟨fun hval => ?_, m, hsafe', hview ▸ hfills⟩
  obtain ⟨hjournal, hmap⟩ := hok hval
  exact ⟨hmap.symm ▸ hjournal, hmap.symm ▸ hview ▸ hfills⟩

theorem sealed_startEvent (hadm : o.Admissible K) (hpath : o.walPath ≠ "") (h : Sealed o d)
    {e : Event K} (he : e ∈ (run (openStore o) (World.boot d)).trace) :
    Sealed o e.world.disk := by
  obtain ⟨m, hsafe, hfills⟩ := h
  obtain ⟨-, hsafe', ⟨hview, -⟩⟩ := (openStore_spec hadm hpath hsafe).1 e he
  exact ⟨m, hsafe', hview ▸ hfills⟩

/-! Where the durable writes of an operation stand in its trace. -/

def payloadPoints (key : K) (value : Bytes) : ℕ := (toBytes key).length + 1 + (value.length + 1)

def flushPoints (o : Options) : ℕ := (calculateLayout o.segmentConfig).bitmapSize + 1

def logPoints (o : Options) (w : World K) : ℕ :=
  kEncodedSize K + 1 + if fires o w then 4 else 0

/-- The crash point `n` lies outside the windows in which bitmap and log disagree. A `Put` opens
the first one with its bitmap flush and closes it with the last byte of its record; the second one
reaches from the last byte of a record that ends an entry to the flush that frees its slot. -/
def Outside (o : Options) (w : World K) : Op K → ℕ → Prop
  | .put key value, n =>
    n < payloadPoints key value ∨
      w.map.lookup key = none ∧ payloadPoints key value + flushPoints o + kEncodedSize K ≤ n ∨
      payloadPoints key value + flushPoints o + (logPoints o w + flushPoints o) ≤ n + 1
  | .delete _, n => n < kEncodedSize K ∨ logPoints o w + flushPoints o ≤ n + 1
  | _, _ => True

instance (o : Options) (w : World K) (op : Op K) (n : ℕ) : Decidable (Outside o w op n) :=
  match op with
  | .put _ _ => inferInstanceAs (Decidable (_ ∨ _ ∧ _ ∨ _))
  | .delete _ => inferInstanceAs (Decidable (_ ∨ _))
  | .start => isTrue trivial
  | .checkpoint => isTrue trivial
  | .compact => isTrue trivial

theorem releaseOld_length (hadm : o.Admissible K) (hlive : Live o (fun _ _ => True) w)
    {a : UInt64} {p : K × Bytes} (ha : view o w.disk a = some p) :
    (run (releaseOld o (some a)) w).trace.length = flushPoints o ∧
      ∀ e, (run (releaseOld o (some a)) w).trace[
          (calculateLayout o.segmentConfig).bitmapSize]? = some e →
        e.world.disk = (run (releaseOld o (some a)) w).state.disk := by
  obtain ⟨s, hs, i, hi, rfl, slot, hslot, -⟩ := view_eq_some ha
  have hok := hlive.segs s hs
  have hbit := (hok.slot_isSome i).mpr ⟨slot, hslot⟩
  obtain ⟨hstate, htrace⟩ := run_freeSlot (w := w) hadm hlive.mgr hs hi
  have hrun : (run (releaseOld o (some (encodeSegmentSlot s i))) w).state =
        (run (File.delete o s i) w).state ∧
      (run (releaseOld o (some (encodeSegmentSlot s i))) w).trace =
        (run (File.delete o s i) w).trace := by
    simp [releaseOld, hstate, htrace]
  rw [hrun.1, hrun.2]
  refine ⟨?_, fun e he => delete_last hok hbit he⟩
  rw [delete_trace hok hbit, flushBitmap_length]
  rfl

theorem commit_event (hadm : o.Admissible K) (hlive : Live o (fun _ _ => True) w)
    (hlogged : Logged o w m) {rec : WalRecord K} (hknown : rec.type.Known)
    (hmap : write m (binding rec) = w.map) {old : Option UInt64}
    (hold : ∀ a, old = some a → ∃ p, view o w.disk a = some p) {n : ℕ} {e : Event K}
    (he : ((run (appendWal o rec) w).trace ++
      (run (releaseOld o old) (run (appendWal o rec) w).state).trace)[n]? = some e) :
    (n < kEncodedSize K → LogEvent o w (· = m) e) ∧
      (kEncodedSize K ≤ n → old = none → LogEvent o w (· = w.map) e) ∧
      (logPoints o w + flushPoints o ≤ n + 1 →
        e.world.disk = (run (releaseOld o old) (run (appendWal o rec) w).state).state.disk) := by
  have hlength : (run (appendWal o rec) w).trace.length = logPoints o w :=
    appendWal_length hlogged rec
  have hpoints : kEncodedSize K < logPoints o w := by
    unfold logPoints
    omega
  by_cases hn : n < logPoints o w
  · rw [List.getElem?_append_left (by omega)] at he
    have hevent := appendWal_event hlogged hknown hmap he
    refine ⟨fun hlt => ?_, fun hge _ => ?_, fun hlast => ?_⟩
    · rwa [if_pos hlt] at hevent
    · rwa [if_neg (Nat.not_lt.mpr hge)] at hevent
    · unfold flushPoints at hlast
      omega
  · rw [List.getElem?_append_right (by omega), hlength] at he
    cases old with
    | none => simp [releaseOld] at he
    | some a =>
      obtain ⟨-, hlog, hwal⟩ := run_appendWal_ok (o := o) hlive.wal rec
      obtain ⟨p, hp⟩ := hold a rfl
      obtain ⟨hcount, hend⟩ := releaseOld_length hadm (hlive.logOnly hlog hwal)
        ((congrFun (view_congr hlog.images) a).trans hp)
      refine ⟨fun hlt => by omega, fun _ hnone => (Option.some_ne_none a hnone).elim,
        fun hlast => hend e ?_⟩
      have hlt := (List.getElem?_eq_some_iff.mp he).1
      unfold flushPoints at hlast hcount
      rw [show (calculateLayout o.segmentConfig).bitmapSize = n - logPoints o w by omega]
      exact he

theorem sealed_put (hadm : o.Admissible K) (h : Filled o w) (key : K) (value : Bytes) {n : ℕ}
    {e : Event K} (hn : Outside o w (.put key value) n)
    (he : (run (Operations.put o key value) w).trace[n]? = some e) : Sealed o e.world.disk := by
  have hend : Filled o (run (Operations.put o key value) w).state :=
    filled_plain hadm h (.put key value) rfl
  have hlive := h.1.live
  rcases put_cases hadm hlive key value with
    ⟨-, -, htrace⟩ | ⟨mgr, s, hmgr, hs, hroom, -, hstate, htrace⟩
  · simp [htrace] at he
  · rw [htrace] at he
    rw [hstate] at hend
    have hlength : (run (File.insert o s (toBytes key) value) { w with mgr := mgr }).trace.length =
        payloadPoints key value + flushPoints o :=
      insert_length (w := { w with mgr := mgr }) hadm.slots (hlive.segs s hs) hroom
    have hlive₁ : Live o (fun _ _ => True) (installed o w mgr s key value) :=
      live_installed hadm hlive hmgr hs hroom trivial
    obtain ⟨hknown, hbinding⟩ := binding_put key (newAddr w s) (w.map.lookup key)
    have hmap : write w.map (binding (putRecord key (newAddr w s) (w.map.lookup key))) =
        (installed o w mgr s key value).map := by
      rw [hbinding]
      rfl
    have hold : ∀ a, w.map.lookup key = some a →
        ∃ p, view o (installed o w mgr s key value).disk a = some p := fun a ha =>
      (old_slot mgr value hadm hlive hs hroom ha).2.imp' (Prod.mk key) fun _ hu => hu
    rcases hn with hpayload | ⟨hnone, hlogged⟩ | hlast
    · rw [List.getElem?_append_left (by omega)] at he
      exact sealed_untouched (Filled.sealed h)
        (insert_payload (w := { w with mgr := mgr }) hadm.slots (hlive.segs s hs) hroom hpayload he)
    · rw [List.getElem?_append_right (by omega), hlength] at he
      obtain ⟨-, hpost, -⟩ := commit_event hadm hlive₁ (h.1.logged.congr rfl rfl rfl) hknown hmap
        hold he
      -- nothing is released, so the final world has the slots of this one
      have hlog : LogOnly (installed o w mgr s key value) (run (logPut o w s key)
          (installed o w mgr s key value)).state := (run_appendWal_ok hlive₁.wal _).2.1
      have hfills := hend.2
      rw [hnone] at hfills
      change Fills (entries (run (logPut o w s key) (installed o w mgr s key value)).state.map)
        (view o (run (logPut o w s key) (installed o w mgr s key value)).state.disk) at hfills
      rw [hlog.map, view_congr hlog.images] at hfills
      exact sealed_logEvent (hpost (by omega) hnone) hlive₁ hlive₁.owns hfills
    · have hflush : 0 < flushPoints o := Nat.succ_pos _
      rw [List.getElem?_append_right (by omega), hlength] at he
      obtain ⟨-, -, hfinal⟩ := commit_event hadm hlive₁ (h.1.logged.congr rfl rfl rfl) hknown hmap
        hold he
      have hpoints : logPoints o (installed o w mgr s key value) = logPoints o w := rfl
      rw [hfinal (by omega)]
      exact Filled.sealed hend

theorem sealed_delete (hadm : o.Admissible K) (h : Filled o w) (key : K) {n : ℕ} {e : Event K}
    (hn : Outside o w (.delete key) n)
    (he : (run (Operations.delete o key) w).trace[n]? = some e) : Sealed o e.world.disk := by
  have hend : Filled o (run (Operations.delete o key) w).state :=
    filled_plain hadm h (.delete key) rfl
  have hlive := h.1.live
  rcases delete_cases (o := o) hlive.wal key with ⟨-, -, -, htrace⟩ | ⟨a, hk, -, hstate, htrace⟩
  · simp [htrace] at he
  · rw [htrace] at he
    rw [hstate] at hend
    obtain ⟨hknown, hbinding⟩ := binding_delete key a
    obtain ⟨u, hu⟩ := hlive.owns key a hk
    have hmap : write w.map (binding (deleteRecord key a)) = w.map.erase key := by
      rw [hbinding]
      rfl
    obtain ⟨hbefore, -, hfinal⟩ := commit_event (w := { w with map := w.map.erase key }) hadm
      (live_erased hlive key) (h.1.logged.congr rfl rfl rfl) hknown hmap
      (fun b hb => ⟨(key, u), Option.some.inj hb ▸ hu⟩) he
    rcases hn with htorn | hlast
    · exact sealed_logEvent (hbefore htorn) (live_erased hlive key) hlive.owns h.2
    · rw [hfinal hlast]
      exact Filled.sealed hend

theorem sealed_checkpoint (h : Filled o w) {e : Event K}
    (he : e ∈ (run (checkpoint o) w).trace) : Sealed o e.world.disk := by
  by_cases hdir : o.snapshotDir = ""
  · simp [(run_checkpoint_refused hdir).2.2] at he
  · obtain ⟨hlabel, himages, hstate, m', hdurable, hmix⟩ := checkpoint_events h.1.logged hdir e he
    exact sealed_logEvent ⟨hlabel, himages, hstate, m', hdurable, mixes_self hmix⟩ h.1.live
      h.1.owns h.2

/-! Runs. -/

/-- Everything but compactions, with crashes outside the windows. -/
def Sparing (o : Options) (s : Store K) : Act K → Prop
  | .complete op => op ≠ .compact
  | .crash => True
  | .crashIn op n => op ≠ .compact ∧ Outside o s.world op n

instance (o : Options) (s : Store K) (a : Act K) : Decidable (Sparing o s a) :=
  match a with
  | .complete _ => inferInstanceAs (Decidable (_ ≠ _))
  | .crash => isTrue trivial
  | .crashIn _ _ => inferInstanceAs (Decidable (_ ∧ _))

theorem sealed_step (hadm : o.Admissible K) (hpath : o.walPath ≠ "") {s s' : Store K} {a : Act K}
    (h : Phase (Filled o) (Sealed o) s) (hspare : Sparing o s a) (hstep : step o s a = some s') :
    Phase (Filled o) (Sealed o) s' := by
  refine phase_step h hstep (fun d => starts_sealed hadm hpath) ?_ ?_ ?_ ?_
  · intro n d e _ hd he
    exact sealed_startEvent hadm hpath hd he
  · intro w _ hw
    exact Filled.sealed hw
  · rintro w op - rfl hop hw
    have hplain : op.plain = true := by
      cases op <;> first | rfl | exact (hop rfl).elim | exact (hspare rfl).elim
    exact filled_plain hadm hw op hplain
  · rintro w op n e rfl rfl hop hw he
    cases op with
    | start => exact (hop rfl).elim
    | put key value => exact sealed_put hadm hw key value hspare.2 he
    | delete key => exact sealed_delete hadm hw key hspare.2 he
    | checkpoint => exact sealed_checkpoint hw (List.mem_of_getElem? he)
    | compact => exact (hspare.1 rfl).elim

theorem sealed_run (hadm : o.Admissible K) (hpath : o.walPath ≠ "") {stateFile : Option Bytes}
    {acts : List (Act K)} {s : Store K}
    (hrun : GuardedRun (step o) (Sparing o) (Store.initial K stateFile) acts s) :
    Phase (Filled o) (Sealed o) s := by
  refine hrun.invariant (I := fun _ s => Phase (Filled o) (Sealed o) s)
    (.down ⟨∅, crashSafe_initial stateFile, fun a k v ha => ?_⟩)
    fun _ _ _ _ h hspare hstep => sealed_step hadm hpath h hspare hstep
  simp [view, Disk.slot, SegmentImage.slot, Disk.empty] at ha

/-- In a run of `Put`, `Delete` and `Checkpoint` whose crashes all fall outside the windows, a
restart at any point finds every occupied slot referenced by a recovered entry. -/
theorem restart_leaks_nothing (hadm : o.Admissible K) (hpath : o.walPath ≠ "")
    {stateFile : Option Bytes} {acts : List (Act K)} {s : Store K}
    (hrun : GuardedRun (step o) (Sparing o) (Store.initial K stateFile) acts s) :
    let r := run (openStore o) (World.boot s.world.disk)
    ((∀ id < o.segmentCount, (s.world.disk.images id).Openable) → r.val = .ok) ∧
      (r.val = .ok → ∀ id < o.segmentCount, ∀ i, (r.state.segs id).bitmap i = true →
        ∃ k, r.state.map.lookup k = some (encodeSegmentSlot id i)) := by
  intro r
  have hsealed : Sealed o s.world.disk := by
    cases sealed_run hadm hpath hrun with
    | up hw => exact Filled.sealed hw
    | down hd => exact hd
  obtain ⟨m, hsafe, -⟩ := id hsealed
  refine ⟨(openStore_spec hadm hpath hsafe).2.2.2.2, fun hval id hid i hbit => ?_⟩
  have hfilled := (starts_sealed hadm hpath hsealed).world hval
  obtain ⟨slot, hslot⟩ := ((hfilled.1.live.segs id hid).slot_isSome i).mp hbit
  obtain ⟨k, -, hk⟩ := (Filled.exact hadm hfilled).occupied id hid i slot hslot
  exact ⟨k, hk⟩

/-- The bitmap of the `Put` is in the file, its record is not in the log: the restarted index has
no entry and an occupied slot. -/
theorem crash_leaks_slot :
    ((perform (step (smallOptions 4 0)) (Store.initial Key64 none)
        [.complete .start, .crashIn (.put 0 [0]) 12, .complete .start]).map fun s =>
      (s.up, s.world.map.keys.card, (s.world.segs 2).bitmap 0)) = some (true, 0, true) := by
  decide +kernel

/-- Crashes while a value is written, in the middle of a delete record and at the end of an
overwrite. -/
def sparingRun : List (Act Key64) :=
  [.complete .start, putKey 0, .crashIn (.put 1 [1]) 10, .complete .start, putKey 1,
    .crashIn (.delete 0) 7, .complete .start, .crashIn (.put 1 [5]) 47]

theorem restart_leaks_nothing_sparing :
    ∃ s, GuardedRun (step (smallOptions 4 0)) (Sparing (smallOptions 4 0))
        (Store.initial Key64 none) sparingRun s ∧
      let r := run (openStore (smallOptions 4 0)) (World.boot s.world.disk)
      r.val = .ok ∧ (r.state.segs 2).bitmap 2 = true ∧
        ∀ id < 3, ∀ i, (r.state.segs id).bitmap i = true →
          ∃ k, r.state.map.lookup k = some (encodeSegmentSlot id i) := by
  obtain ⟨s, hrun, hs⟩ := exists_guardedRun
    (f := fun s : Store Key64 =>
      let r := run (openStore (smallOptions 4 0)) (World.boot s.world.disk)
      (r.val, (r.state.segs 2).bitmap 2))
    (show (performGuarded (step (smallOptions 4 0)) (Sparing (smallOptions 4 0))
      (Store.initial Key64 none) sparingRun).map _ = some (.ok, true) by decide +kernel)
  obtain ⟨hval, hbit⟩ := Prod.mk.inj hs
  exact ⟨s, hrun, hval, hbit, (restart_leaks_nothing (smallOptions_admissible 0 (by decide))
    (by decide) hrun).2 hval⟩

end ParaKV.Index.CrashLeaks
