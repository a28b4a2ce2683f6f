/- GID: ParaKV/Index/CompactionSafety
   source: parakv/core/index/index.cc
   digest: When the files keep up with the live map through the callbacks of a compaction. -/

import ParaKV.Index.CrashSafety
import ParaKV.Index.Compaction

set_option autoImplicit false

namespace ParaKV.Index.CompactionSafety

open Lib.TracedProgram Lib.LogMap Lib.OwnedSlots Index.Key Index.Operations Index.Durability
open Index.Ownership Index.CrashSafety Index.Compaction Segment Segment.FileSpec Segment.Manager
open Core.State

variable {K : Type} [DecidableEq K] [KeyType K]
variable {o : Options} {H : K → Bytes → Prop} {w : World K} {m : Map K}
variable {src i target : ℕ} {slot : Slot} {rest : List ℕ}

/-- The entry of every occupied slot in `X` points back at it. -/
def Tight (o : Options) (X : ℕ → ℕ → Prop) (w : World K) : Prop :=
  ∀ s i slot, s < o.segmentCount → i < o.totalSlots → X s i → w.disk.slot s i = some slot →
    w.map.lookup (ofBytes slot.key) = some (encodeSegmentSlot s i)

/-! Properties of the callbacks: `before` is the world in which the callback is entered. -/

/-- The append of the callback runs no checkpoint, or the key has moved on. -/
def Quiet (o : Options) (e : Event K) : Prop :=
  match e.label with
  | .io => True
  | .moved before key oldEnc _ =>
    ¬ (fires o before = true ∧ before.map.lookup key = some oldEnc)

/-- The key still maps to the slot that was moved. -/
def Referenced (e : Event K) : Prop :=
  match e.label with
  | .io => True
  | .moved before key oldEnc _ => before.map.lookup key = some oldEnc

/-- The append runs a checkpoint exactly when the key has moved on. -/
def Matched (o : Options) (e : Event K) : Prop :=
  match e.label with
  | .io => True
  | .moved before key oldEnc _ =>
    fires o before = true ↔ before.map.lookup key ≠ some oldEnc

/-- The files recover to the live map when the callback returns. -/
def Faithful (o : Options) (e : Event K) : Prop :=
  match e.label with
  | .io => True
  | .moved _ _ _ _ => recover o e.world.disk = some e.world.map

instance (o : Options) (e : Event K) : Decidable (Quiet o e) :=
  match e with
  | ⟨.io, _⟩ => isTrue trivial
  | ⟨.moved before key oldEnc _, _⟩ =>
    inferInstanceAs (Decidable (¬ (fires o before = true ∧ before.map.lookup key = some oldEnc)))

instance (o : Options) (e : Event K) : Decidable (Faithful o e) :=
  match e with
  | ⟨.io, _⟩ => isTrue trivial
  | ⟨.moved _ _ _ _, w⟩ => inferInstanceAs (Decidable (recover o w.disk = some w.map))

instance (e : Event K) : Decidable (Referenced e) :=
  match e with
  | ⟨.io, _⟩ => isTrue trivial
  | ⟨.moved before key oldEnc _, _⟩ =>
    inferInstanceAs (Decidable (before.map.lookup key = some oldEnc))

variable {e : Event K}

theorem Matched.quiet (h : Matched o e) : Quiet o e := by
  obtain ⟨_ | _, w'⟩ := e
  · trivial
  · exact fun hc => h.mp hc.1 hc.2

theorem matched_iff_of_referenced (h : Referenced e) :
    Matched o e ↔ ∀ before key oldEnc newEnc, e.label = .moved before key oldEnc newEnc →
      fires o before = false := by
  obtain ⟨_ | ⟨before, key, oldEnc, newEnc⟩, w'⟩ := e
  · refine ⟨fun _ _ _ _ _ hlabel => ?_, fun _ => trivial⟩
    cases hlabel
  · have href : before.map.lookup key = some oldEnc := h
    constructor
    · rintro hmatched _ _ _ _ ⟨⟩
      have hmatched : fires o before = true ↔ before.map.lookup key ≠ some oldEnc := hmatched
      simpa [href] using hmatched
    · intro hfires
      have hquiet := hfires before key oldEnc newEnc rfl
      change fires o before = true ↔ before.map.lookup key ≠ some oldEnc
      simp [href, hquiet]

/-- What a callback must meet for the files to stay crash safe and, with `agree`, for them to
go on holding the live map. -/
def Tracks (o : Options) (agree : Prop) (e : Event K) : Prop :=
  Quiet o e ∧ (agree → Matched o e)

/-- What holds at the points of a compaction. With `agree` the files hold the live map when it
starts. -/
structure Sound (o : Options) (H : K → Bytes → Prop) (agree : Prop) (e : Event K) : Prop where
  safe : ∃ m', CrashSafe o H e.world.disk m'
  faithful : agree → (Faithful o e ↔ Matched o e)

def Filed (o : Options) (agree : Prop) (w : World K) : Prop :=
  ∃ m, Logged o w m ∧ Owns (entries m) (view o w.disk) ∧ (agree → m = w.map)

def FiledAt (o : Options) (agree : Prop) (src j : ℕ) (w : World K) : Prop :=
  ∃ m, Logged o w m ∧ Owns (entries m) (view o w.disk) ∧
    Avoids (entries m) (At (Before src j)) ∧ (agree → m = w.map)

theorem sound_io {agree : Prop} (hlabel : e.label = .io)
    (hsafe : ∃ m', CrashSafe o H e.world.disk m') : Sound o H agree e := by
  refine ⟨hsafe, fun _ => ?_⟩
  simp only [Faithful, Matched, hlabel]

theorem binding_move {K : Type} [KeyType K] (w : World K) (src i target : ℕ) (slot : Slot) :
    (moveLog w src i target slot).type.Known ∧
      binding (moveLog w src i target slot) = (ofBytes slot.key, some (newAddr w target)) :=
  ⟨fun _ => by simp [moveLog, moveRecord], rfl⟩

def filedAfter (o : Options) (w : World K) (m : Map K) (target : ℕ) (slot : Slot) : Map K :=
  if fires o (copied o w target slot) then w.map
  else m.insert (ofBytes slot.key) (newAddr w target)

theorem logged_moved (hlogged : Logged o w m) (src i target : ℕ) (slot : Slot) :
    Logged o (movedWorld o w src i target slot) (filedAfter o w m target slot) := by
  have hcopied : Logged o (copied o w target slot) m := hlogged.congr rfl rfl rfl
  exact (logged_appendWal hcopied (binding_move w src i target slot).1).congr rfl rfl rfl

theorem view_moved (h : Live o H w) : view o (movedWorld o w src i target slot).disk =
    view o (copied o w target slot).disk :=
  view_congr (movedWorld_frame h src i target slot).2.2.1

section Move

variable {agree : Prop} (hadm : o.Admissible K) (h : Live o H w)
variable (hmove : Move o w src i target slot)

include hadm h hmove

theorem owns_replayed (hown : Owns (entries m) (view o w.disk)) :
    Owns (entries (m.insert (ofBytes slot.key) (newAddr w target)))
      (view o (copied o w target slot).disk) := by
  rw [entries_insert]
  exact (owns_copied hadm h hmove hown).set (copied_new hadm h hmove)

theorem owns_filedAfter (hown : Owns (entries m) (view o w.disk)) :
    Owns (entries (filedAfter o w m target slot)) (view o (copied o w target slot).disk) := by
  unfold filedAfter
  split_ifs
  · exact owns_copied hadm h hmove h.owns
  · exact owns_replayed hadm h hmove hown

theorem move_label :
    ∀ e ∈ (run (File.insert o target slot.key slot.value) w).trace ++
      (run (appendWal o (moveLog w src i target slot)) (copied o w target slot)).trace,
      e.label = .io := by
  intro e he
  rcases List.mem_append.mp he with he | he
  · exact (insert_writes hadm.slots (h.segs target hmove.target_lt) hmove.room e he).1
  · exact appendWal_label (w := copied o w target slot) h.wal _ e he

theorem move_safe (hlogged : Logged o w m) (hown : Owns (entries m) (view o w.disk)) :
    (∀ e ∈ (run (File.insert o target slot.key slot.value) w).trace ++
      (run (appendWal o (moveLog w src i target slot)) (copied o w target slot)).trace,
      e.label = .io ∧ ∃ m', CrashSafe o H e.world.disk m') ∧
    CrashSafe o H (movedWorld o w src i target slot).disk (filedAfter o w m target slot) := by
  have hcopied := live_copied hadm h hmove
  constructor
  · intro e he
    rcases List.mem_append.mp he with he | he
    · obtain ⟨hlabel, hev⟩ := insert_writes hadm.slots (h.segs target hmove.target_lt)
        hmove.room e he
      refine ⟨hlabel, m, (Journaled.mk h hlogged hown).crashSafe.touch hev
        (avoids_new hadm h hmove.target_lt hmove.room hown) ?_ ?_⟩
      · rintro _ rfl
        exact h.stored src hmove.source_lt i _ hmove.occupied
      · rintro s' i' _ ⟨rfl, rfl⟩ -
        exact ⟨(h.segs s' hmove.target_lt).complete, hmove.room⟩
    · have hevent := appendWal_events (w := copied o w target slot) (m := m)
        (hlogged.congr rfl rfl rfl) (binding_move w src i target slot).1 e he
      obtain ⟨m', -, hsafe⟩ := crashSafe_logEvent hevent hcopied fun m' hm' => by
        rcases hm' with rfl | hmix
        · exact owns_copied hadm h hmove hown
        · exact owns_mixes (owns_replayed hadm h hmove hown)
            (owns_copied hadm h hmove h.owns) hmix
      exact ⟨hevent.label, m', hsafe⟩
  · have hmoved := (live_moved hadm h hmove).1
    refine ⟨(logged_moved hlogged src i target slot).durable, ?_, hmoved.stored,
      fun s hs => (hmoved.segs s hs).imageOk⟩
    rw [view_moved h]
    exact owns_filedAfter hadm h hmove hown

theorem lookup_ne_new : w.map.lookup (ofBytes slot.key) ≠ some (newAddr w target) := by
  intro hk
  obtain ⟨v, hv⟩ := h.owns _ _ hk
  rw [h.new_vacant hadm hmove.target_lt hmove.room] at hv
  cases hv

/-- The files follow the live map exactly when the append runs a checkpoint for an entry that
has moved on, or runs none for one that has not. -/
theorem filedAfter_eq_live_iff :
    filedAfter o w w.map target slot = (movedWorld o w src i target slot).map ↔
      Matched o (movedEvent o w src i target slot) := by
  have hnew := lookup_ne_new hadm h hmove
  have hinsert : w.map ≠ w.map.insert (ofBytes slot.key) (newAddr w target) := by
    intro heq
    have hlookup := congrArg (fun n : Map K => n.lookup (ofBytes slot.key)) heq
    simp only [Finmap.lookup_insert] at hlookup
    exact hnew hlookup
  change (if _ then _ else _) = remapped w.map _ _ _ ↔ (fires o (copied o w target slot) = true ↔
    w.map.lookup (ofBytes slot.key) ≠ some (encodeSegmentSlot src i))
  unfold remapped
  by_cases hf : fires o (copied o w target slot) = true <;>
    by_cases href : w.map.lookup (ofBytes slot.key) = some (encodeSegmentSlot src i)
  · simp [hf, href, hinsert]
  · simp [hf, href]
  · simp [hf, href]
  · simp [hf, href, hinsert.symm]

theorem movedEvent_sound (hkey : o.segmentConfig.keySize = KeyType.size K)
    (hpath : o.walPath ≠ "") (hlogged : Logged o w m) (hown : Owns (entries m) (view o w.disk))
    (hagree : agree → m = w.map) :
    Sound o H agree (movedEvent o w src i target slot) := by
  have hsafe := (move_safe hadm h hmove hlogged hown).2
  have hrecover := recover_of_durable hkey hpath hsafe.durable
  refine ⟨⟨_, hsafe⟩, fun ha => ?_⟩
  obtain rfl := hagree ha
  rw [← filedAfter_eq_live_iff hadm h hmove]
  change recover o (movedWorld o w src i target slot).disk = some _ ↔ _
  rw [hrecover, Option.some.injEq]
  rfl

theorem tight_moved (hsrc : src ∉ rest)
    (href : w.map.lookup (ofBytes slot.key) = some (encodeSegmentSlot src i))
    (htight : Tight o (fun s j => s ∈ rest ∨ s = src ∧ i ≤ j) w) :
    Tight o (fun s j => s ∈ rest ∨ s = src ∧ i + 1 ≤ j) (movedWorld o w src i target slot) := by
  intro s j slot' hs hj hX hslot
  have hmap : (movedWorld o w src i target slot).map =
      w.map.insert (ofBytes slot.key) (newAddr w target) := if_pos href
  rw [Disk.slot, (movedWorld_frame h src i target slot).2.2.1] at hslot
  have hcopied :=
    (afterInsert_slot slot.key slot.value (h.segs target hmove.target_lt) s j).symm.trans
    hslot
  rw [hmap, lookup_insert_eq]
  by_cases hnew : s = target ∧ j = (w.segs target).appendCursor
  -- the copy itself, whose entry has just been moved
  · rw [if_pos hnew, Option.some.injEq] at hcopied
    rw [← hcopied, if_pos rfl, hnew.1, hnew.2]
    rfl
  · rw [if_neg hnew] at hcopied
    have hentry := htight s j slot' hs hj (hX.imp_right fun hX => ⟨hX.1, by omega⟩) hcopied
    split_ifs with hk
    -- the entry that moved would have to be the one of this slot
    · rw [hk, href, Option.some.injEq] at hentry
      obtain ⟨rfl, rfl⟩ := encodeSegmentSlot_inj
        (lt_of_lt_of_le hmove.source_lt hadm.segments) (lt_of_lt_of_le hmove.bound hadm.slots)
        (lt_of_lt_of_le hs hadm.segments) (lt_of_lt_of_le hj hadm.slots) hentry
      rcases hX with hmem | ⟨-, hlt⟩
      · exact (hsrc hmem).elim
      · omega
    · exact hentry

end Move

theorem filedAt_move (hadm : o.Admissible K) (hpath : o.walPath ≠ "") {agree : Prop}
    (h : Live o H w) (hmove : Move o w src i target slot)
    (hcleared : Avoids (entries w.map) (At (Before src i)))
    (hfiled : FiledAt o agree src i w) :
    Guarded (Tracks o agree) (Sound o H agree)
        (run (File.compactSlot o src target (slotMoved o) i) w).trace ∧
      ((∀ e ∈ (run (File.compactSlot o src target (slotMoved o) i) w).trace, Tracks o agree e) →
        FiledAt o agree src (i + 1) (movedWorld o w src i target slot)) := by
  obtain ⟨m, hlogged, hown, havoid, hagree⟩ := hfiled
  have hsafe := (move_safe hadm h hmove hlogged hown).1
  have hmoved : Sound o H agree (movedEvent o w src i target slot) :=
    movedEvent_sound hadm h hmove hadm.keySize hpath hlogged hown hagree
  obtain ⟨-, -, htrace⟩ := run_compactSlot hadm h hmove
  rw [htrace, ← List.append_assoc]
  constructor
  · refine guarded_of_forall fun e he => ?_
    rcases List.mem_append.mp he with he | he
    · exact sound_io (hsafe e he).1 (hsafe e he).2
    · exact List.mem_singleton.mp he ▸ hmoved
  · intro htracks
    obtain ⟨hquiet, hmatched⟩ := htracks (movedEvent o w src i target slot) (by simp)
    refine ⟨filedAfter o w m target slot, logged_moved hlogged src i target slot, ?_, ?_,
      fun ha => ?_⟩
    · rw [view_moved h]
      exact owns_filedAfter hadm h hmove hown
    · unfold filedAfter
      split_ifs with hf
      · exact avoids_step hadm hmove h.owns hcleared (Or.inr ⟨rfl, fun hk => hquiet ⟨hf, hk⟩⟩)
      · exact avoids_step hadm hmove hown havoid (Or.inl rfl)
    · obtain rfl := hagree ha
      exact (filedAfter_eq_live_iff hadm h hmove).mpr (hmatched ha)

theorem filedAt_reset (hadm : o.Admissible K) {agree : Prop} (h : Live o H w)
    (hlt : src < o.segmentCount) (hfiled : FiledAt o agree src (w.segs src).appendCursor w) :
    Guarded (Tracks o agree) (Sound o H agree) (run (File.resetSegment o src) w).trace ∧
      Filed o agree (afterReset w src) := by
  obtain ⟨m, hlogged, hown, havoid, hagree⟩ := hfiled
  have hsegment := avoids_segment hadm h hlt hown havoid
  have htouch := touches_afterReset (h.segs src hlt)
  constructor
  · refine guarded_of_forall fun e he => ?_
    obtain ⟨hlabel, hev⟩ := resetSegment_writes (h.segs src hlt) e he
    exact sound_io hlabel ⟨m, (Journaled.mk h hlogged hown).crashSafe.clear hev hsegment⟩
  · exact ⟨m, hlogged.congr rfl rfl rfl, touches_owns htouch hown hsegment, hagree⟩

theorem filed_carried (hadm : o.Admissible K) (hpath : o.walPath ≠ "") (agree : Prop) :
    Carried o H (Tracks o agree) (Sound o H agree) (fun _ => Filed o agree)
      (fun _ => FiledAt o agree) (Filed o agree) where
  manager := by
    rintro _ w mgr ⟨m, hlogged, hown, hagree⟩
    exact ⟨m, hlogged.congr rfl rfl rfl, hown, hagree⟩
  start := by
    rintro _ src w - ⟨m, hlogged, hown, hagree⟩
    refine ⟨m, hlogged, hown, ?_, hagree⟩
    rintro k a - ⟨s, j, ⟨-, hj⟩, -⟩
    exact absurd hj (Nat.not_lt_zero j)
  skip := by
    rintro _ src i w h hsrc hi hvacant ⟨m, hlogged, hown, havoid, hagree⟩
    exact ⟨m, hlogged, hown, avoids_skip hadm hsrc hi hvacant hown havoid, hagree⟩
  move h hmove _ hcleared hfiled := filedAt_move hadm hpath h hmove hcleared hfiled
  reset h hlt _ hfiled := filedAt_reset hadm h hlt hfiled
  early := by
    rintro _ src i w ⟨m, hlogged, hown, -, hagree⟩
    exact ⟨m, hlogged, hown, hagree⟩
  final hfiled := hfiled

/-- A compaction is crash safe as long as its callbacks are quiet. From files that hold the
live map, a callback is faithful exactly when it is matched. -/
theorem compaction_sound (hadm : o.Admissible K) (hpath : o.walPath ≠ "") (agree : Prop)
    (h : Journaled o H w m) (hagree : agree → m = w.map) :
    Guarded (Tracks o agree) (Sound o H agree) (run (runAttachedCompaction o) w).trace ∧
      ((∀ e ∈ (run (runAttachedCompaction o) w).trace, Tracks o agree e) →
        ∃ m', Journaled o H (run (runAttachedCompaction o) w).state m' ∧
          (agree → m' = (run (runAttachedCompaction o) w).state.map)) := by
  obtain ⟨htrace, hend⟩ := runCompaction_carried hadm (filed_carried hadm hpath agree)
    (value o w) w ⟨h.live, rfl, m, h.logged, h.owns, hagree⟩
  refine ⟨htrace, fun htracks => ?_⟩
  obtain ⟨hlive, -, m', hlogged, hown, hmap⟩ := hend htracks
  exact ⟨m', ⟨hlive, hlogged, hown⟩, hmap⟩

/-! Tight candidates: every callback finds its entry where it was. -/

theorem tight_carried (hadm : o.Admissible K) :
    Carried o H (fun _ => True) Referenced (fun rest => Tight o fun s _ => s ∈ rest)
      (fun rest src j => Tight o fun s i => s ∈ rest ∨ s = src ∧ j ≤ i) fun _ => True where
  manager htight := htight
  start := by
    intro rest src w _ htight s j slot hs hj hX
    refine htight s j slot hs hj ?_
    rcases hX with hmem | ⟨rfl, -⟩
    · exact List.mem_cons_of_mem _ hmem
    · exact List.mem_cons_self
  skip := by
    intro rest src i w _ _ _ _ htight s j slot hs hj hX
    exact htight s j slot hs hj (hX.imp_right fun hX => ⟨hX.1, by omega⟩)
  move := by
    intro rest src i target slot w h hmove hsrc _ htight
    have href : w.map.lookup (ofBytes slot.key) = some (encodeSegmentSlot src i) :=
      htight src i slot hmove.source_lt hmove.bound (Or.inr ⟨rfl, le_refl i⟩) hmove.occupied
    obtain ⟨-, -, htrace⟩ := run_compactSlot hadm h hmove
    refine ⟨guarded_of_forall fun e he => ?_,
      fun _ => tight_moved hadm h hmove hsrc href htight⟩
    rw [htrace, ← List.append_assoc] at he
    rcases List.mem_append.mp he with he | he
    · have hlabel : e.label = .io := move_label hadm h hmove e he
      simp only [Referenced, hlabel]
    · exact List.mem_singleton.mp he ▸ href
  reset := by
    intro rest src w h hlt hsrc htight
    refine ⟨guarded_of_forall fun e he => ?_, fun s j slot hs hj hmem hslot => ?_⟩
    · have hlabel := (resetSegment_writes (h.segs src hlt) e he).1
      simp only [Referenced, hlabel]
    · have hne : s ≠ src := fun heq => hsrc (heq ▸ hmem)
      rw [afterReset_slot, if_neg hne] at hslot
      exact htight s j slot hs hj (Or.inl hmem) hslot
  early _ := trivial
  final _ := trivial

theorem compaction_referenced (hadm : o.Admissible K) (h : Live o H w)
    (htight : Tight o (fun s _ => s ∈ candidates o w) w) :
    ∀ e ∈ (run (runAttachedCompaction o) w).trace, Referenced e := by
  obtain ⟨htrace, -⟩ := runCompaction_carried hadm (tight_carried (H := H) hadm) (value o w) w
    ⟨h, rfl, htight⟩
  exact (htrace.forall_iff fun e he => ⟨fun _ => trivial, fun _ => he⟩).mpr fun _ _ => trivial

end ParaKV.Index.CompactionSafety
