/- GID: ParaKV/Index/CrashSafety
   source: parakv/core/index/index.cc
   digest: Every point of a Put, a Delete and a Checkpoint recovers to an owning map. -/

import ParaKV.Index.Ownership

set_option autoImplicit false

namespace ParaKV.Index.CrashSafety

open Lib.LogMap Lib.OwnedSlots Index.Key Index.Wal Index.Operations Index.Durability Index.Ownership
open Segment.FileSpec Core.State

variable {K : Type} [DecidableEq K] [KeyType K]

/-- A process that stops here restarts with the map `m`, which owns its slots. -/
structure CrashSafe (o : Options) (H : K → Bytes → Prop) (d : Disk K) (m : Map K) : Prop where
  durable : Durable o d m
  owns : Owns (entries m) (view o d)
  stored : Stored o H d
  images : ∀ s < o.segmentCount, ImageOk o (d.images s)

def Complete (o : Options) (d : Disk K) : Prop :=
  ∀ s < o.segmentCount, (d.images s).Complete

/-- A running store whose files hold the map `m`. -/
structure Journaled (o : Options) (H : K → Bytes → Prop) (w : World K) (m : Map K) : Prop where
  live : Live o H w
  logged : Logged o w m
  owns : Owns (entries m) (view o w.disk)

variable {o : Options} {H : K → Bytes → Prop} {d d' : Disk K} {w w' : World K} {m m' : Map K}
variable {X : ℕ → ℕ → Prop} {N : Slot → Prop}

theorem complete_of_touches {K : Type} {d d' : Disk K} (h : Touches X N d d') (hd : Complete o d) :
    Complete o d' :=
  fun s hs => h.complete s (hd s hs)

theorem complete_congr {K : Type} {d d' : Disk K} (h : d'.images = d.images) (hd : Complete o d) :
    Complete o d' := by
  intro s hs
  rw [h]
  exact hd s hs

theorem live_complete (h : Live o H w) : Complete o w.disk :=
  fun s hs => (h.segs s hs).complete

theorem Journaled.crashSafe (h : Journaled o H w m) : CrashSafe o H w.disk m :=
  ⟨h.logged.durable, h.owns, h.live.stored, fun s hs => (h.live.segs s hs).imageOk⟩

theorem CrashSafe.touch (h : CrashSafe o H d m) (htouch : Touches X N d d')
    (havoid : Avoids (entries m) (At X))
    (hnew : ∀ slot, N slot → Good H slot)
    (hX : ∀ s i slot, X s i → N slot → (d.images s).Complete ∧ i < o.totalSlots) :
    CrashSafe o H d' m where
  durable := h.durable.congr htouch.wal htouch.snapshot
  owns := touches_owns htouch h.owns havoid
  stored := touches_stored htouch h.stored hnew
  images s hs := htouch.imageOk s (hX s) (h.images s hs)

theorem CrashSafe.clear (h : CrashSafe o H d m) (htouch : Touches X Nothing d d')
    (havoid : Avoids (entries m) (At X)) : CrashSafe o H d' m :=
  h.touch htouch havoid (fun _ hn => hn.elim) fun _ _ _ _ hn => hn.elim

theorem crashSafe_logEvent {P : Map K → Prop} {e : Event K} (h : LogEvent o w P e)
    (hlive : Live o H w) (hP : ∀ m', P m' → Owns (entries m') (view o w.disk)) :
    ∃ m', P m' ∧ CrashSafe o H e.world.disk m' := by
  obtain ⟨-, himages, -, m', hdurable, hm'⟩ := h
  refine ⟨m', hm', hdurable, ?_, stored_congr himages hlive.stored, ?_⟩
  · rw [view_congr himages]
    exact hP m' hm'
  · intro s hs
    rw [himages]
    exact (hlive.segs s hs).imageOk

/-- What an operation from `w` to `w'` guarantees at its crash points and at its end. The
second parts say that it starts and ends with files that hold the live map. -/
structure CrashSound (o : Options) (H : K → Bytes → Prop) (w : World K) (m : Map K)
    (es : List (Event K)) (w' : World K) : Prop where
  journaled : ∃ m', Journaled o H w' m' ∧ (m = w.map → m' = w'.map)
  events : ∀ e ∈ es, e.label = .io ∧ Complete o e.world.disk ∧
    ∃ m', CrashSafe o H e.world.disk m' ∧ (m = w.map →
      content (entries m') (view o e.world.disk) = value o w ∨
        content (entries m') (view o e.world.disk) = value o w')

/-! The common end of `Put` and `Delete`: log the change of the map, then free the old slot. -/

section Commit

variable {rec : WalRecord K} {old : Option UInt64}

/-- What the log append needs of the world in which the map has just been changed. -/
structure Committing (o : Options) (H : K → Bytes → Prop) (w : World K) (m : Map K)
    (rec : WalRecord K) (old : Option UInt64) : Prop where
  live : Live o H w
  logged : Logged o w m
  owns : Owns (entries m) (view o w.disk)
  known : rec.type.Known
  written : Owns (entries (write m (binding rec))) (view o w.disk)
  entry : w.map.lookup rec.key = (binding rec).2
  old : ∀ a, old = some a →
    (∃ u, view o w.disk a = some (rec.key, u)) ∧ (binding rec).2 ≠ some a

def committed (o : Options) (w : World K) (m : Map K) (rec : WalRecord K) : Map K :=
  if fires o w then w.map else write m (binding rec)

theorem Committing.owns_committed (h : Committing o H w m rec old) :
    Owns (entries (committed o w m rec)) (view o w.disk) := by
  unfold committed
  split_ifs
  · exact h.live.owns
  · exact h.written

theorem Committing.committed_entry (h : Committing o H w m rec old) :
    entries (committed o w m rec) rec.key = (binding rec).2 := by
  unfold committed entries
  split_ifs
  · exact h.entry
  · rw [lookup_write]
    exact if_pos rfl

theorem Committing.avoids_old (h : Committing o H w m rec old) {n : Map K}
    (hn : Owns (entries n) (view o w.disk)) (hentry : entries n rec.key = (binding rec).2)
    {a : UInt64} (ha : old = some a) : Avoids (entries n) (· = a) := by
  obtain ⟨⟨u, hu⟩, hne⟩ := h.old a ha
  exact hn.avoids_cell hu (hentry ▸ hne)

theorem Committing.append_events (h : Committing o H w m rec old) :
    ∀ e ∈ (run (appendWal o rec) w).trace, e.label = .io ∧
      e.world.disk.images = w.disk.images ∧ ∃ m', CrashSafe o H e.world.disk m' ∧ (m' = m ∨
        (write m (binding rec) = w.map → m' = w.map)) := by
  intro e he
  have hevent := appendWal_events h.logged h.known e he
  obtain ⟨m', hm', hsafe⟩ := crashSafe_logEvent hevent h.live fun m' hm' => by
    rcases hm' with rfl | hmix
    · exact h.owns
    · exact owns_mixes h.written h.live.owns hmix
  refine ⟨hevent.label, hevent.images, m', hsafe, hm'.imp_right fun hmix heq => ?_⟩
  refine Finmap.ext_lookup fun k => ?_
  rcases hmix k with hk | hk
  · rw [hk, heq]
  · exact hk

theorem commit_sound (hadm : o.Admissible K) (h : Committing o H w m rec old) :
    let w₂ := (run (appendWal o rec) w).state
    let r := run (releaseOld o old) w₂
    (∃ m', Journaled o H r.state m' ∧ (write m (binding rec) = w.map → m' = r.state.map)) ∧
      value o r.state = value o w ∧
      ∀ e ∈ (run (appendWal o rec) w).trace ++ r.trace, e.label = .io ∧
        Complete o e.world.disk ∧ ∃ m', CrashSafe o H e.world.disk m' ∧
          (m' = m ∧ view o e.world.disk = view o w.disk ∨
            (write m (binding rec) = w.map →
              content (entries m') (view o e.world.disk) = value o w)) := by
  intro w₂ r
  obtain ⟨-, hlog, hwal⟩ := run_appendWal_ok (o := o) h.live.wal rec
  have hlive₂ : Live o H w₂ := h.live.logOnly hlog hwal
  have hview : view o w₂.disk = view o w.disk := view_congr hlog.images
  have hlogged₂ : Logged o w₂ (committed o w m rec) := logged_appendWal h.logged h.known
  have hsafe₂ : CrashSafe o H w₂.disk (committed o w m rec) :=
    ⟨hlogged₂.durable, hview ▸ h.owns_committed, hlive₂.stored,
      fun s hs => (hlive₂.segs s hs).imageOk⟩
  have hr : Released o old w₂ r := by
    refine releaseOld_spec hadm hlive₂.mgr hlive₂.segs fun a ha => ?_
    obtain ⟨⟨u, hu⟩, -⟩ := h.old a ha
    exact isSlot_of_view hu
  obtain ⟨X, hwrites, htouch, hat⟩ := hr.writes
  have havoid : Avoids (entries (committed o w m rec)) (At X) := fun k a hk ha =>
    h.avoids_old h.owns_committed h.committed_entry (hat a ha) k a hk rfl
  have hmap : write m (binding rec) = w.map → committed o w m rec = w.map := by
    intro heq
    unfold committed
    rw [heq, ite_self]
  obtain ⟨hlive₃, hvalue⟩ := hlive₂.released hr fun a ha => by
    rw [hlog.map]
    exact h.avoids_old h.live.owns h.entry ha
  have hvalue₂ : value o w₂ = value o w := by
    rw [value, hlog.map, hview]
    rfl
  refine ⟨⟨committed o w m rec, ⟨hlive₃, ?_, ?_⟩, fun heq => ?_⟩, hvalue.trans hvalue₂, ?_⟩
  · exact hlogged₂.congr htouch.wal htouch.snapshot hr.wal
  · exact (hsafe₂.clear htouch havoid).owns
  · rw [hmap heq, hr.map, hlog.map]
  · intro e he
    rcases List.mem_append.mp he with he | he
    · obtain ⟨hlabel, hev, m', hsafe, hm'⟩ := h.append_events e he
      refine ⟨hlabel, complete_congr hev (live_complete h.live), m', hsafe, ?_⟩
      rcases hm' with rfl | hm'
      · exact Or.inl ⟨rfl, view_congr hev⟩
      · refine Or.inr fun heq => ?_
        rw [hm' heq, view_congr hev]
        rfl
    · obtain ⟨hlabel, hev⟩ := hwrites e he
      refine ⟨hlabel, complete_of_touches hev (live_complete hlive₂), committed o w m rec,
        hsafe₂.clear hev havoid, Or.inr fun heq => ?_⟩
      rw [touches_content_eq hev havoid, hview, hmap heq]
      rfl

end Commit

/-! The three operations. -/

theorem binding_put {K : Type} (key : K) (a : UInt64) (old : Option UInt64) :
    (putRecord key a old).type.Known ∧ binding (putRecord key a old) = (key, some a) := by
  cases old <;> exact ⟨fun _ => by simp [putRecord], rfl⟩

theorem binding_delete {K : Type} (key : K) (a : UInt64) :
    (deleteRecord key a).type.Known ∧ binding (deleteRecord key a) = (key, none) :=
  ⟨fun _ => by simp [deleteRecord], rfl⟩

theorem put_sound (hadm : o.Admissible K) (h : Journaled o H w m) {key : K} {v : Bytes}
    (hH : H key v) :
    CrashSound o H w m (run (Operations.put o key v) w).trace
      (run (Operations.put o key v) w).state := by
  rcases put_cases hadm h.live key v with
    ⟨-, ⟨mgr, hmgr, hstate⟩, htrace⟩ | ⟨mgr, s, hmgr, hs, hroom, -, hstate, htrace⟩
  · refine ⟨⟨m, ⟨?_, ?_, ?_⟩, ?_⟩, ?_⟩
    · rw [hstate]
      exact h.live.congr hmgr rfl rfl rfl h.live.wal
    · rw [hstate]
      exact h.logged.congr rfl rfl rfl
    · rw [hstate]
      exact h.owns
    · rw [hstate]
      exact fun heq => heq
    · rw [htrace]
      intro e he
      cases he
  · let w₁ := installed o w mgr s key v
    obtain ⟨hknown, hbinding⟩ := binding_put key (newAddr w s) (w.map.lookup key)
    have htouch : Touches (OneSlot s (w.segs s).appendCursor) (· = ⟨toBytes key, v⟩) w.disk
      w₁.disk := touches_installed mgr key v h.live hs
    have havoid := avoids_new hadm h.live hs hroom h.owns
    have hwritten : write m (key, some (newAddr w s)) = m.insert key (newAddr w s) := rfl
    have hcommit : Committing o H w₁ m (putRecord key (newAddr w s) (w.map.lookup key))
        (w.map.lookup key) := by
      refine ⟨live_installed hadm h.live hmgr hs hroom hH, h.logged.congr rfl rfl rfl,
        touches_owns htouch h.owns havoid, hknown, ?_, ?_, fun a ha => ?_⟩
      · rw [hbinding, hwritten, entries_insert]
        exact (touches_owns htouch h.owns havoid).set
          (view_installed mgr key v hadm h.live hs hroom)
      · rw [hbinding]
        exact Finmap.lookup_insert _
      · rw [hbinding]
        obtain ⟨hne, hcell⟩ := old_slot mgr v hadm h.live hs hroom ha
        exact ⟨hcell, fun heq => hne (Option.some.inj heq).symm⟩
    obtain ⟨⟨m', hjournal, hm'⟩, hvalue, hevents⟩ := commit_sound hadm hcommit
    have hbefore : m = w.map → content (entries m) (view o w.disk) = value o w := by
      rintro rfl
      rfl
    refine ⟨⟨m', ?_, ?_⟩, ?_⟩
    · rw [hstate]
      exact hjournal
    · rw [hstate]
      rintro rfl
      exact hm' (by rw [hbinding]; rfl)
    · rw [htrace]
      intro e he
      rcases List.mem_append.mp he with he | he
      -- while the slot is written the files hold the old map
      · obtain ⟨hlabel, hev⟩ := insert_writes (w := { w with mgr := mgr }) hadm.slots
          (h.live.segs s hs) hroom e he
        have hcomplete : Complete o w.disk := live_complete h.live
        refine ⟨hlabel, complete_of_touches hev hcomplete, m,
          h.crashSafe.touch hev havoid ?_ ?_, fun heq => Or.inl ?_⟩
        · rintro slot rfl
          exact ⟨key, rfl, hH⟩
        · rintro s' i' slot ⟨rfl, rfl⟩ -
          exact ⟨(h.live.segs s' hs).complete, hroom⟩
        · rw [touches_content_eq hev havoid]
          exact hbefore heq
      · obtain ⟨hlabel, hcomplete, m', hsafe, hcontent⟩ := hevents e he
        refine ⟨hlabel, hcomplete, m', hsafe, fun heq => ?_⟩
        rcases hcontent with ⟨rfl, hview⟩ | hcontent
        · left
          rw [hview, touches_content_eq htouch havoid]
          exact hbefore heq
        · right
          rw [hstate]
          exact (hcontent (by rw [hbinding, heq]; rfl)).trans hvalue.symm

theorem delete_sound (hadm : o.Admissible K) (h : Journaled o H w m) (key : K) :
    CrashSound o H w m (run (Operations.delete o key) w).trace
      (run (Operations.delete o key) w).state := by
  rcases delete_cases (o := o) h.live.wal key with
    ⟨-, -, hstate, htrace⟩ | ⟨a, hk, -, hstate, htrace⟩
  · rw [hstate, htrace]
    exact ⟨⟨m, h, fun heq => heq⟩, fun e he => by cases he⟩
  · obtain ⟨hknown, hbinding⟩ := binding_delete key a
    obtain ⟨u, hu⟩ := h.live.owns key a hk
    have hcommit : Committing o H { w with map := w.map.erase key } m (deleteRecord key a)
        (some a) := by
      refine ⟨live_erased h.live key, h.logged.congr rfl rfl rfl, h.owns, hknown, ?_, ?_,
        fun b hb => ?_⟩
      · rw [hbinding]
        change Owns (entries (m.erase key)) _
        rw [entries_erase]
        exact h.owns.unset key
      · rw [hbinding]
        exact Finmap.lookup_erase key w.map
      · cases hb
        exact ⟨⟨u, hu⟩, by rw [hbinding]; simp⟩
    obtain ⟨⟨m', hjournal, hm'⟩, hvalue, hevents⟩ := commit_sound hadm hcommit
    refine ⟨⟨m', ?_, ?_⟩, ?_⟩
    · rw [hstate]
      exact hjournal
    · rw [hstate]
      rintro rfl
      exact hm' (by rw [hbinding]; rfl)
    · rw [htrace]
      intro e he
      obtain ⟨hlabel, hcomplete, m', hsafe, hcontent⟩ := hevents e he
      refine ⟨hlabel, hcomplete, m', hsafe, fun heq => ?_⟩
      rcases hcontent with ⟨rfl, hview⟩ | hcontent
      · left
        rw [hview, heq]
        rfl
      · right
        rw [hstate]
        exact (hcontent (by rw [hbinding, heq]; rfl)).trans hvalue.symm

theorem checkpoint_sound (h : Journaled o H w m) :
    CrashSound o H w m (run (checkpoint o) w).trace (run (checkpoint o) w).state := by
  by_cases hdir : o.snapshotDir = ""
  · obtain ⟨-, hstate, htrace⟩ := run_checkpoint_refused (w := w) hdir
    rw [hstate, htrace]
    exact ⟨⟨m, h, fun heq => heq⟩, fun e he => by cases he⟩
  · obtain ⟨-, hstate⟩ := run_checkpoint (w := w) hdir
    have hlogged := logged_afterCheckpoint h.logged hdir
    have hlive : Live o H (afterCheckpoint w) :=
      h.live.logOnly (logOnly_afterCheckpoint w) hlogged.walOpen
    refine ⟨⟨w.map, ?_, ?_⟩, fun e he => ?_⟩
    · rw [hstate]
      exact ⟨hlive, hlogged, hlive.owns⟩
    · rw [hstate]
      exact fun _ => rfl
    · have hevent := checkpoint_events h.logged hdir e he
      obtain ⟨m', hmix, hsafe⟩ := crashSafe_logEvent hevent h.live fun m' hmix =>
        owns_mixes h.owns h.live.owns hmix
      refine ⟨hevent.label, complete_congr hevent.images (live_complete h.live), m', hsafe,
        fun heq => Or.inl ?_⟩
      obtain rfl : m' = w.map := by
        refine Finmap.ext_lookup fun k => ?_
        rcases hmix k with hk | hk
        · rw [hk, heq]
        · exact hk
      rw [view_congr hevent.images]
      rfl

end ParaKV.Index.CrashSafety
