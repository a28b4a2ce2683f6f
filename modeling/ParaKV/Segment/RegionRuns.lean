/- GID: ParaKV/Segment/RegionRuns
   source: parakv/core/segment/segment_base.cc, parakv/core/segment/segment_file.cc,
     parakv/core/index/index.cc
   digest: Segments by region answer as the bytes of their files do, over every run. -/

import ParaKV.Lib.Transducer
import ParaKV.Segment.Regions
import ParaKV.Index.Runs

set_option autoImplicit false

namespace ParaKV.Segment.RegionRuns

open Lib.TracedProgram Lib.ByteStore Lib.Transducer Index.Key Index.Operations Index.Durability
open Segment.Base Segment.FileSpec Segment.Bytes Segment.BytesSpec Segment.ByteLog Segment.Regions
open Segment.ByteCounters (created)
open Core.State Index
open Segment.Bytes.SegmentFile (Disk)

/-! All the segments of a directory. -/

variable {K : Type} {o : Options} {s : Object Disk} {w : World K} {id : ℕ}
  {objects : ℕ → Object Disk}

/-- Every segment is linked, and the callback can append to the log. -/
structure AllLinked (o : Options) (objects : ℕ → Object Disk) (w : World K) : Prop where
  segment : ∀ id, Linked o id (objects id) w
  wal : WalOpen w

theorem allLinked_empty (o : Options) :
    AllLinked o (fun _ => created o.segmentConfig none) (World.boot (Disk.empty K)) where
  segment id := by
    refine ⟨rfl, ⟨rfl, rfl, rfl, rfl⟩, List.length_replicate, ?_, ?_, fun _ => ⟨rfl, rfl⟩, ?_, ?_⟩
    · intro i _
      simp [created, Members.fresh, Members.isSlotOccupied, World.boot, SegmentBase.fresh]
    · intro file hfile
      cases hfile
    · exact ⟨fun i hi => (by cases hi), fun i hi => (by cases hi)⟩
    · intro hopen
      cases hopen
  wal := by
    intro writer hwriter
    cases hwriter

theorem AllLinked.updated (h : AllLinked o objects w) {α : Type}
    {bytes : Outcome (Object Disk) Fault α} {regions : Outcome (World K) (Event K) α}
    (hm : Matches o id w bytes regions) :
    AllLinked o (Function.update objects id bytes.state) regions.state where
  segment j := by
    by_cases hj : j = id
    · subst hj
      rw [Function.update_self]
      exact hm.linked
    · rw [Function.update_of_ne hj]
      exact (h.segment j).aside hm.aside hj
  wal := by
    rw [WalOpen, hm.aside.wal]
    exact h.wal

/-! Moving the slots of one segment into another. -/

def movesOf (trace : List (Event K)) : List (K × UInt64 × UInt64) :=
  trace.filterMap fun e =>
    match e.label with
    | .io => none
    | .moved _ key oldEnc newEnc => some (key, oldEnc, newEnc)

def callOf [KeyType K] (m : Bytes.Move) : K × UInt64 × UInt64 :=
  (KeyType.ofBytes m.key, encodeSegmentSlot m.oldSegment m.oldSlot,
    encodeSegmentSlot m.newSegment m.newSlot)

theorem movesOf_append (t t' : List (Event K)) : movesOf (t ++ t') = movesOf t ++ movesOf t' :=
  List.filterMap_append

theorem movesOf_io {t : List (Event K)} (h : ∀ e ∈ t, e.label = .io) : movesOf t = [] := by
  rw [movesOf, List.filterMap_eq_nil_iff]
  intro e he
  rw [h e he]

/-- What a callback leaves alone: the segments, their files, and a log it can append to. -/
structure Beside (w w' : World K) : Prop where
  segs : w'.segs = w.segs
  images : w'.disk.images = w.disk.images
  wal : WalOpen w'

theorem linked_beside {w' : World K} (h : Linked o id s w) (hw : Beside w w') :
    Linked o id s w' := by
  rw [Linked, hw.segs, hw.images]
  exact h

variable [DecidableEq K] [KeyType K]

theorem slotMoved_beside (hwal : WalOpen w) (m : Bytes.Move) :
    let r := run (slotMoved o m.key m.oldSegment m.oldSlot m.newSegment m.newSlot) w
    Beside w r.state ∧ movesOf r.trace = [(callOf m : K × UInt64 × UInt64)] := by
  intro r
  obtain ⟨-, hlog, hopen⟩ := run_appendWal_ok (o := o) hwal
    (moveRecord (KeyType.ofBytes m.key : K) (encodeSegmentSlot m.oldSegment m.oldSlot)
      (encodeSegmentSlot m.newSegment m.newSlot))
  have hlabel := appendWal_label (o := o) hwal
    (moveRecord (KeyType.ofBytes m.key : K) (encodeSegmentSlot m.oldSegment m.oldSlot)
      (encodeSegmentSlot m.newSegment m.newSlot))
  constructor
  · refine ⟨?_, ?_, ?_⟩
    · simpa [r, slotMoved, remapIfEquals] using hlog.segs
    · simpa [r, slotMoved, remapIfEquals] using hlog.images
    · simpa [r, slotMoved, remapIfEquals, WalOpen] using hopen
  · simp [r, slotMoved, remapIfEquals, movesOf_append, movesOf_io hlabel]
    rfl

/-- A segment file as the target of a compaction. -/
def fileTarget (c : SegmentConfig) (id : ℕ) : Target (Object Disk) where
  segmentId := id
  insert key value t :=
    let r := go (SegmentFile.insert c key value) t
    (r.val.1, r.val.2, r.state)

theorem sized_stored (c : SegmentConfig) (file : ByteFile) (i : ℕ) : Sized c (stored c file i) :=
  ⟨length_slice _ _ _, length_slice _ _ _⟩

/-- Slots of the object `s` moved into the segment `target`, and the same over the world `w`. -/
structure Moved (o : Options) (target : ℕ) (s : Object Disk) (w : World K)
    (b : Outcome (Object Disk) Fault (Status × List Bytes.Move × Object Disk))
    (r : Outcome (World K) (Event K) (Option Status)) : Prop where
  status : some b.val.1 = r.val
  source : b.state = s
  moves : b.val.2.1.map callOf = movesOf r.trace
  filled : Linked o target b.val.2.2 r.state
  wal : WalOpen r.state
  segs : ∀ j, j ≠ target → r.state.segs j = w.segs j
  images : ∀ j, j ≠ target → r.state.disk.images j = w.disk.images j

theorem moveSlots_moved (hsound : Sound o.segmentConfig) (hslots : o.totalSlots ≤ 2 ^ 28)
    {src target : ℕ} (hne : target ≠ src) {t : Object Disk} (hopen : s.opened = true) (n i : ℕ)
    (hbound : i + n ≤ o.totalSlots) (hsrc : Linked o src s w) (htarget : Linked o target t w)
    (hwal : WalOpen w) :
    Moved o target s w
      (go (moveSlots o.segmentConfig SegmentFile.medium src
        (fileTarget o.segmentConfig target) n i t) s)
      (run (File.compactLoop o src target (slotMoved o) n i) w) := by
  induction n generalizing i t w with
  | zero => exact ⟨rfl, rfl, rfl, htarget, hwal, fun _ _ => rfl, fun _ _ => rfl⟩
  | succ n ih =>
    have hi : i < o.totalSlots := by omega
    have hbit := hsrc.bits i hi
    obtain ⟨file, hdev, hshows⟩ := hsrc.file_of_open hopen
    set B := go (moveSlots o.segmentConfig SegmentFile.medium src
      (fileTarget o.segmentConfig target) (n + 1) i t) s
    set R := run (File.compactLoop o src target (slotMoved o) (n + 1) i) w
    cases hocc : (w.segs src).bitmap i with
    | false =>
      rw [hocc] at hbit
      obtain ⟨hstatus, hsource, hmoves, hfilled, hwal', hsegs, himages⟩ :=
        ih (i + 1) (by omega) hsrc htarget hwal
      constructor <;> simpa [B, R, moveSlots, File.compactLoop, hocc, hbit]
    | true =>
      rw [hocc] at hbit
      have hread := go_readSlot hsound hdev hshows hi
      have hstay : (go (readSlot o.segmentConfig SegmentFile.medium i) s).state = s :=
        (readSlot_stays i _ s).symm
      set slot := (w.disk.images src).slots i with hslot
      have hsized : Sized o.segmentConfig slot := by
        rw [hslot, ← hshows.slots i hi]
        exact sized_stored _ _ _
      have hlabels := insert_labels hslots htarget slot.key slot.value
      obtain ⟨hval, hlinked, haside⟩ := insert_matches hsound hslots htarget hsized
      set b := go (SegmentFile.insert o.segmentConfig slot.key slot.value) t with hb
      set r := run (File.insert o target slot.key slot.value) w with hr
      have hinsert : (fileTarget o.segmentConfig target).insert slot.key slot.value t =
          (b.val.1, b.val.2, b.state) := rfl
      have hwal' : WalOpen r.state := by
        rw [WalOpen, haside.wal]
        exact hwal
      by_cases hok : r.val.1 = .ok
      · obtain ⟨hbeside, hmoves⟩ := slotMoved_beside (o := o) hwal'
          ⟨slot.key, src, i, target, r.val.2⟩
        obtain ⟨hstatus, hsource, hrest, hfilled, hwal'', hsegs, himages⟩ :=
          ih (i + 1) (by omega) (linked_beside (hsrc.aside haside hne.symm) hbeside)
            (linked_beside hlinked hbeside) hbeside.wal
        set b' := go (moveSlots o.segmentConfig SegmentFile.medium src
          (fileTarget o.segmentConfig target) n (i + 1) b.state) s with hb'
        set m := run (slotMoved o slot.key src i target r.val.2) r.state with hm
        set r' := run (File.compactLoop o src target (slotMoved o) n (i + 1)) m.state with hr'
        have hbytes : B.val = (b'.val.1, ⟨slot.key, src, i, target, r.val.2⟩ :: b'.val.2.1,
            b'.val.2.2) ∧ B.state = b'.state := by
          simp [B, moveSlots, hbit, hread, hstay, hinsert, hval, hok, ← hb']
          rfl
        have hregions : R.val = r'.val ∧ R.state = r'.state ∧
            movesOf R.trace = movesOf m.trace ++ movesOf r'.trace := by
          simp [R, File.compactLoop, File.compactSlot, hocc, hne, ← hslot, ← hr, hok, ← hm, ← hr',
            movesOf_append, movesOf_io hlabels]
        constructor <;> simp only [hbytes, hregions]
        · exact hstatus
        · exact hsource
        · rw [List.map_cons, hmoves, hrest]
          rfl
        · exact hfilled
        · exact hwal''
        · exact fun j hj =>
            (hsegs j hj).trans ((congrFun hbeside.segs j).trans (haside.segs j hj))
        · exact fun j hj =>
            (himages j hj).trans ((congrFun hbeside.images j).trans (haside.images j hj))
      · have hbytes : B.val = (r.val.1, [], b.state) ∧ B.state = s := by
          simp [B, moveSlots, hbit, hread, hstay, hinsert, hval, hok]
        have hregions : R.val = some r.val.1 ∧ R.state = r.state ∧ movesOf R.trace = [] := by
          simp [R, File.compactLoop, File.compactSlot, hocc, hne, ← hslot, ← hr, hok,
            movesOf_io hlabels]
        constructor <;> simp only [hbytes, hregions]
        · rfl
        · exact hlinked
        · exact hwal'
        · exact haside.segs
        · exact haside.images

/-- `Compact` into another segment: both objects follow, and the callback is called alike. -/
theorem compact_moved (hsound : Sound o.segmentConfig) (hslots : o.totalSlots ≤ 2 ^ 28)
    {src target : ℕ} (hne : target ≠ src) {t : Object Disk} (hsrc : Linked o src s w)
    (htarget : Linked o target t w) (hwal : WalOpen w) :
    let b := go (SegmentFile.compact o.segmentConfig src (fileTarget o.segmentConfig target) t) s
    let r := run (File.compact o src target (slotMoved o)) w
    some b.val.1 = r.val ∧ b.val.2.1.map callOf = movesOf r.trace ∧ Linked o src b.state r.state ∧
      Linked o target b.val.2.2 r.state ∧ WalOpen r.state ∧
      ∀ j, j ≠ target → j ≠ src → r.state.segs j = w.segs j ∧
        r.state.disk.images j = w.disk.images j := by
  intro b r
  by_cases hopen : s.opened = true
  · have hopen' : (w.segs src).isOpen = true := hsrc.opened ▸ hopen
    have hok := hsrc.segmentOk hopen
    have hmoved := moveSlots_moved hsound hslots hne hopen (w.segs src).appendCursor 0
      (by rw [Nat.zero_add]; exact hok.bound) hsrc htarget hwal
    set b' := go (moveSlots o.segmentConfig SegmentFile.medium src
      (fileTarget o.segmentConfig target) (w.segs src).appendCursor 0 t) s with hb'
    set r' := run (File.compactLoop o src target (slotMoved o) (w.segs src).appendCursor 0) w
      with hr'
    have hcursor := hsrc.counts.appendCursor
    have hsrc' : Linked o src s r'.state := by
      rw [Linked, hmoved.segs src hne.symm, hmoved.images src hne.symm]
      exact hsrc
    by_cases hdone : r'.val = some .ok
    · have hopen'' : SegmentOk o (r'.state.segs src) (r'.state.disk.images src) :=
        hsrc'.segmentOk hopen
      have hreset := resetSegment_writes hopen''
      obtain ⟨hval, hstate⟩ := run_resetSegment o r'.state src
      have hstatus : b'.val.1 = .ok := Option.some.inj (hmoved.status.trans hdone)
      have hb : b.val = (.ok, b'.val.2.1, b'.val.2.2) ∧ b.state = ⟨true, s.members.resetBitmap,
          s.dev.map fun file => file.write s.members.resetBitmap.bitmap 0⟩ := by
        simp [b, SegmentFile.compact, compactSlots, hopen, hcursor, ← hb', hstatus,
          hmoved.source, go_flushBitmap, SegmentFile.onFile, onMembers]
      have hr : r.val = some .ok ∧ r.state = afterReset r'.state src ∧
          movesOf r.trace = movesOf r'.trace := by
        simp [r, File.compact, hopen', ← hr', hdone, hval, hstate, movesOf_append,
          movesOf_io fun e he => (hreset e he).1]
      have haside : Aside src r'.state (afterReset r'.state src) := aside_set _ _ _ _
      rw [hb.1, hb.2, hr.1, hr.2.1, hr.2.2]
      refine ⟨rfl, hmoved.moves, ?_, hmoved.filled.aside haside hne, hmoved.wal, ?_⟩
      · rw [Linked, afterReset, setSegment_self, setSegment_disk, setImage_self]
        obtain ⟨file, hdev, hshows⟩ := hsrc'.file_of_open hopen
        rw [hdev]
        exact mirrors_reset hsound hshows hsrc'.length hopen''.isOpen
      · intro j hjt hjs
        exact ⟨(haside.segs j hjs).trans (hmoved.segs j hjt),
          (haside.images j hjs).trans (hmoved.images j hjt)⟩
    · have hstatus : b'.val.1 ≠ .ok := fun hok => hdone (hmoved.status ▸ congrArg some hok)
      have hb : b.val = b'.val ∧ b.state = s := by
        simp [b, SegmentFile.compact, compactSlots, hopen, hcursor, ← hb', hstatus,
          hmoved.source]
      have hr : r.val = r'.val ∧ r.state = r'.state ∧ r.trace = r'.trace := by
        simp [r, File.compact, hopen', ← hr', hdone]
      rw [hb.1, hb.2, hr.1, hr.2.1, hr.2.2]
      exact ⟨hmoved.status, hmoved.moves, hsrc', hmoved.filled, hmoved.wal,
        fun j hjt _ => ⟨hmoved.segs j hjt, hmoved.images j hjt⟩⟩
  · obtain ⟨hclosed, hclosed'⟩ := hsrc.closed hopen
    have hb : b.val = (.ioError, [], t) ∧ b.state = s := by
      simp [b, SegmentFile.compact, compactSlots, hclosed]
    have hr : r.val = some .ioError ∧ r.state = w ∧ r.trace = [] := by
      simp [r, File.compact, hclosed']
    rw [hb.1, hb.2, hr.1, hr.2.1, hr.2.2]
    exact ⟨rfl, rfl, hsrc, htarget, hwal, fun _ _ _ => ⟨rfl, rfl⟩⟩

/-! The segments as one machine. -/

/-- What is asked of the segments; `restart` is a new process over the files. -/
inductive Command (o : Options)
  | openSegment (id : ℕ)
  | close (id : ℕ)
  | insert (id : ℕ) (p : Payload o.segmentConfig)
  | read (id sid : ℕ)
  | delete (id sid : ℕ)
  | compact (src target : ℕ) (h : target ≠ src)
  | restart

inductive Answer (K : Type)
  | status (st : Status)
  | inserted (st : Status) (sid : ℕ)
  | slot (st : Status) (slot : Slot)
  | compacted (st : Option Status) (calls : List (K × UInt64 × UInt64))
  | restarted
  deriving DecidableEq

/-- Segment objects over the bytes of their files. -/
def serveBytes (o : Options) (objects : ℕ → Object Disk) :
    Command o → Answer K × (ℕ → Object Disk)
  | .openSegment id =>
    let r := go (SegmentFile.openSegment o.segmentConfig) (objects id)
    (.status r.val, Function.update objects id r.state)
  | .close id =>
    let r := go SegmentFile.close (objects id)
    (.status r.val, Function.update objects id r.state)
  | .insert id p =>
    let r := go (SegmentFile.insert o.segmentConfig p.1.key p.1.value) (objects id)
    (.inserted r.val.1 r.val.2, Function.update objects id r.state)
  | .read id sid =>
    let r := go (SegmentFile.read o.segmentConfig sid) (objects id)
    (.slot r.val.1 r.val.2, Function.update objects id r.state)
  | .delete id sid =>
    let r := go (SegmentFile.delete o.segmentConfig sid) (objects id)
    (.status r.val, Function.update objects id r.state)
  | .compact src target _ =>
    let r := go (SegmentFile.compact o.segmentConfig src (fileTarget o.segmentConfig target)
      (objects target)) (objects src)
    (.compacted (some r.val.1) (r.val.2.1.map callOf),
      Function.update (Function.update objects target r.val.2.2) src r.state)
  | .restart => (.restarted, fun id => created o.segmentConfig (objects id).dev)

/-- The same segments by region, inside the world of the index. -/
def serveRegions (o : Options) (w : World K) : Command o → Answer K × World K
  | .openSegment id =>
    let r := run (File.openSegment o id) w
    (.status r.val, r.state)
  | .close id =>
    let r := run (File.closeSegment o id) w
    (.status r.val, r.state)
  | .insert id p =>
    let r := run (File.insert o id p.1.key p.1.value) w
    (.inserted r.val.1 r.val.2, r.state)
  | .read id sid =>
    let r := run (File.read o id sid) w
    (.slot r.val.1 r.val.2, r.state)
  | .delete id sid =>
    let r := run (File.delete o id sid) w
    (.status r.val, r.state)
  | .compact src target _ =>
    let r := run (File.compact o src target (slotMoved o)) w
    (.compacted r.val (movesOf r.trace), r.state)
  | .restart => (.restarted, World.boot w.disk)

theorem serve_linked (hsound : Sound o.segmentConfig) (hslots : o.totalSlots ≤ 2 ^ 28)
    (h : AllLinked o objects w) (c : Command o) :
    (serveBytes o objects c).1 = (serveRegions o w c).1 ∧
      AllLinked o (serveBytes (K := K) o objects c).2 (serveRegions o w c).2 := by
  cases c with
  | openSegment id =>
    have hm := open_matches hsound (h.segment id)
    exact ⟨congrArg Answer.status hm.val, h.updated hm⟩
  | close id =>
    have hm := close_matches hsound (h.segment id)
    exact ⟨congrArg Answer.status hm.val, h.updated hm⟩
  | insert id p =>
    have hm := insert_matches hsound hslots (h.segment id) p.2
    exact ⟨congrArg (fun v : Status × ℕ => Answer.inserted v.1 v.2) hm.val, h.updated hm⟩
  | read id sid =>
    have hm := read_matches hsound (h.segment id) sid
    exact ⟨congrArg (fun v : Status × Slot => Answer.slot v.1 v.2) hm.val, h.updated hm⟩
  | delete id sid =>
    have hm := delete_matches hsound (h.segment id) sid
    exact ⟨congrArg Answer.status hm.val, h.updated hm⟩
  | compact src target hne =>
    obtain ⟨hstatus, hmoves, hsrc, htarget, hwal, hothers⟩ :=
      compact_moved hsound hslots hne (h.segment src) (h.segment target) h.wal
    refine ⟨congrArg₂ Answer.compacted hstatus hmoves, ?_, hwal⟩
    intro j
    show Linked o j (Function.update (Function.update objects target _) src _ j) _
    by_cases hjs : j = src
    · subst hjs
      rw [Function.update_self]
      exact hsrc
    · rw [Function.update_of_ne hjs]
      by_cases hjt : j = target
      · subst hjt
        rw [Function.update_self]
        exact htarget
      · obtain ⟨hsegs, himages⟩ := hothers j hjt hjs
        rw [Function.update_of_ne hjt, Linked]
        show Mirrors o _ ((run _ w).state.segs j) ((run _ w).state.disk.images j)
        rw [hsegs, himages]
        exact h.segment j
  | restart =>
    refine ⟨rfl, fun id => linked_boot (h.segment id), ?_⟩
    intro writer hwriter
    cases hwriter

/-- Over every run of opens, closes, inserts, reads, deletes, compactions and restarts, the
segments by region give the answers that the bytes of their files give, the arguments of every
callback included, and show those files at the end. -/
theorem regions_answer_as_bytes (hsound : Sound o.segmentConfig) (hslots : o.totalSlots ≤ 2 ^ 28)
    (h : AllLinked o objects w) (commands : List (Command o)) :
    (serveAll (serveBytes o) objects commands).1 = (serveAll (serveRegions o) w commands).1 ∧
      ∀ id, Linked o id ((serveAll (serveBytes (K := K) o) objects commands).2 id)
        (serveAll (serveRegions o) w commands).2 := by
  have hstep : ∀ objects w c, AllLinked o objects w → True →
      (serveBytes o objects c).1 = (serveRegions o w c).1 ∧
        AllLinked o (serveBytes (K := K) o objects c).2 (serveRegions o w c).2 :=
    fun _ _ c h _ => serve_linked hsound hslots h c
  obtain ⟨hanswers, hlinked⟩ := serveAll_agree (fun _ _ => True) hstep h commands
    fun _ _ => trivial
  exact ⟨hanswers, hlinked.segment⟩

/-- A key is put into the segment 0, deleted, put again, and moved into the segment 1. -/
def movedRun : List (Command (Runs.smallOptions 2 0)) :=
  [.openSegment 0, .openSegment 1, .insert 0 ⟨⟨List.replicate 8 7, [1]⟩, rfl, rfl⟩, .delete 0 0,
    .insert 0 ⟨⟨List.replicate 8 7, [2]⟩, rfl, rfl⟩, .compact 0 1 (by decide), .restart,
    .openSegment 1, .read 1 0, .read 0 0]

theorem regions_answer_as_bytes_moved :
    let o := Runs.smallOptions 2 0
    let objects := fun _ => created o.segmentConfig none
    (serveAll (serveBytes (K := Key64) o) objects movedRun).1 =
        [.status .ok, .status .ok, .inserted .ok 0, .status .ok, .inserted .ok 1,
          .compacted (some .ok)
            [(0x0707070707070707, encodeSegmentSlot 0 1, encodeSegmentSlot 1 0)],
          .restarted, .status .ok, .slot .ok ⟨List.replicate 8 7, [2]⟩, .slot .ioError ⟨[], []⟩] ∧
      (serveAll (serveBytes (K := Key64) o) objects movedRun).1 =
        (serveAll (serveRegions o) (World.boot (Disk.empty Key64)) movedRun).1 :=
  ⟨by decide +kernel, (regions_answer_as_bytes
    ⟨by decide, by decide, by decide, covers_of_unwrapped ⟨by decide, by decide⟩⟩ (by decide)
    (allLinked_empty _) movedRun).1⟩

end ParaKV.Segment.RegionRuns
