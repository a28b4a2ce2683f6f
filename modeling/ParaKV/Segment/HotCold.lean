/- GID: ParaKV/Segment/HotCold
   source: parakv/core/segment/segment_manager.cc
   digest: The hot segments after an evaluation of the access counters. -/

import ParaKV.Lib.HashOrder

/-!
`EvaluateHotCold` promotes, then demotes, then trims. A promotion looks at the size of the hot set
before the demotions, so segments that are about to be demoted can keep others out. The trimming
looks for the smallest counter below the largest 64-bit number and takes segment 0 if there is none.
-/

set_option autoImplicit false

namespace ParaKV.Segment.HotCold

open Lib.HashOrder Lib.HashOrder.UnorderedSet

/-- `access_counters_` in its iteration order. -/
structure AccessCounters where
  ids : UnorderedSet ℕ
  count : ℕ → UInt64

/-- The members of the manager that have to do with hot segments. -/
structure Tracking where
  counters : AccessCounters
  hot : UnorderedSet ℕ

/-- `operator[]` of the map, which starts a new counter at 0. -/
def AccessCounters.get (c : AccessCounters) (id : ℕ) : UInt64 :=
  if id ∈ c.ids then c.count id else 0

def recordAccess (h : HashPolicy ℕ) (t : Tracking) (id : ℕ) : Tracking :=
  { t with counters :=
    { ids := t.counters.ids.insert h id
      count := Function.update t.counters.count id (t.counters.get id + 1) } }

section Evaluate

variable (h : HashPolicy ℕ) (c : AccessCounters) (hotThreshold : UInt64) (maxHotSegments : ℕ)

def promoteOne (hot : UnorderedSet ℕ) (id : ℕ) : UnorderedSet ℕ :=
  if hotThreshold ≤ c.count id ∧ id ∉ hot ∧ hot.order.length < maxHotSegments then hot.insert h id
  else hot

def promote (hot : UnorderedSet ℕ) : UnorderedSet ℕ :=
  c.ids.order.foldl (promoteOne h c hotThreshold maxHotSegments) hot

def toDemote (hot : UnorderedSet ℕ) : List ℕ :=
  hot.order.filter fun id => id ∉ c.ids ∨ c.count id < hotThreshold

def demote (hot : UnorderedSet ℕ) : UnorderedSet ℕ := (toDemote c hotThreshold hot).foldl erase hot

def uint64Max : UInt64 := 0xFFFFFFFFFFFFFFFF

/-- The search for the smallest counter. -/
def findVictim (hot : UnorderedSet ℕ) : ℕ × UInt64 :=
  hot.order.foldl (fun best id => if c.get id < best.2 then (id, c.get id) else best)
    (0, uint64Max)

/-- The trimming loop, cut off after `fuel` turns. -/
def trim : ℕ → UnorderedSet ℕ → Option (UnorderedSet ℕ)
  | 0, _ => none
  | fuel + 1, hot =>
    if hot.order.length > maxHotSegments then trim fuel (hot.erase (findVictim c hot).1)
    else some hot

end Evaluate

/-- The counters start anew; `none` is a loop that has not ended. -/
def evaluateHotCold (h : HashPolicy ℕ) (fuel : ℕ) (hotThreshold : UInt64) (maxHotSegments : ℕ)
    (t : Tracking) : Option Tracking :=
  let hot := promote h t.counters hotThreshold maxHotSegments t.hot
  let hot := demote t.counters hotThreshold hot
  (trim t.counters maxHotSegments fuel hot).map fun hot =>
    { counters := { t.counters with ids := t.counters.ids.clear }, hot := hot }

/-! Promotion and demotion. -/

def Reached (c : AccessCounters) (hotThreshold : UInt64) (id : ℕ) : Prop :=
  id ∈ c.ids ∧ hotThreshold ≤ c.count id

instance (c : AccessCounters) (hotThreshold : UInt64) (id : ℕ) :
    Decidable (Reached c hotThreshold id) := inferInstanceAs (Decidable (_ ∧ _))

def newcomers (c : AccessCounters) (hotThreshold : UInt64) (hot : UnorderedSet ℕ) : List ℕ :=
  c.ids.order.filter fun id => hotThreshold ≤ c.count id ∧ id ∉ hot

variable {h : HashPolicy ℕ} {c : AccessCounters} {hotThreshold : UInt64} {maxHotSegments : ℕ}
variable {hot : UnorderedSet ℕ}

theorem insert_order_perm {id : ℕ} (hid : id ∉ hot) :
    (hot.insert h id).order.Perm (id :: hot.order) := by
  rw [UnorderedSet.insert, dif_neg (mem_def.not.mp hid)]
  exact h.place_perm _ _ _

theorem foldl_promoteOne_perm {l : List ℕ} (hl : l.Nodup) (hot : UnorderedSet ℕ) :
    (l.foldl (promoteOne h c hotThreshold maxHotSegments) hot).order.Perm
      (hot.order ++ (l.filter fun id => hotThreshold ≤ c.count id ∧ id ∉ hot).take
        (maxHotSegments - hot.order.length)) := by
  induction l generalizing hot with
  | nil => simp
  | cons id l ih =>
    obtain ⟨hid, hl⟩ := List.nodup_cons.mp hl
    rw [List.foldl_cons]
    by_cases hnew : hotThreshold ≤ c.count id ∧ id ∉ hot
    · rw [List.filter_cons_of_pos (by simpa using hnew)]
      by_cases hroom : hot.order.length < maxHotSegments
      · have hperm := insert_order_perm (h := h) hnew.2
        have hrest : (l.filter fun i => hotThreshold ≤ c.count i ∧ i ∉ hot.insert h id) =
            l.filter fun i => hotThreshold ≤ c.count i ∧ i ∉ hot := by
          refine List.filter_congr fun i hi => ?_
          have hne : i ≠ id := fun heq => hid (heq ▸ hi)
          simp [hne]
        have htake : maxHotSegments - hot.order.length =
            (maxHotSegments - (hot.insert h id).order.length) + 1 := by
          rw [hperm.length_eq, List.length_cons]
          omega
        rw [promoteOne, if_pos ⟨hnew.1, hnew.2, hroom⟩]
        refine (ih hl _).trans ?_
        rw [hrest, htake, List.take_succ_cons]
        refine (hperm.append_right _).trans ?_
        exact List.perm_middle.symm
      · have hzero : maxHotSegments - hot.order.length = 0 := by omega
        rw [promoteOne, if_neg fun hp => hroom hp.2.2]
        refine (ih hl hot).trans ?_
        rw [hzero, List.take_zero, List.take_zero]
    · rw [List.filter_cons_of_neg (by simpa using hnew),
        promoteOne, if_neg fun hp => hnew ⟨hp.1, hp.2.1⟩]
      exact ih hl hot

theorem promote_perm (hot : UnorderedSet ℕ) :
    (promote h c hotThreshold maxHotSegments hot).order.Perm (hot.order ++
      (newcomers c hotThreshold hot).take (maxHotSegments - hot.order.length)) :=
  foldl_promoteOne_perm c.ids.nodup hot

theorem foldl_erase_order (l : List ℕ) (hot : UnorderedSet ℕ) :
    (l.foldl erase hot).order = hot.order.filter (· ∉ l) := by
  induction l generalizing hot with
  | nil => simp
  | cons id l ih =>
    have herase : (hot.erase id).order = hot.order.filter (· != id) := hot.nodup.erase_eq_filter id
    rw [List.foldl_cons, ih, herase, List.filter_filter]
    refine List.filter_congr fun i _ => ?_
    by_cases hi : i = id <;> simp [hi]

theorem demote_order (hot : UnorderedSet ℕ) :
    (demote c hotThreshold hot).order = hot.order.filter (Reached c hotThreshold ·) := by
  rw [demote, foldl_erase_order]
  refine List.filter_congr fun id hid => ?_
  have hmem : id ∈ toDemote c hotThreshold hot ↔ ¬ Reached c hotThreshold id := by
    simp [toDemote, Reached, hid, imp_iff_not_or]
  by_cases hreached : Reached c hotThreshold id <;> simp [hmem, hreached]

/-! The trimming loop. -/

/-- The hot segments that the search for a victim never finds. -/
def stuck (c : AccessCounters) (l : List ℕ) : List ℕ :=
  l.filter fun id => c.get id = uint64Max ∧ id ≠ 0

theorem lt_uint64Max {x : UInt64} : x < uint64Max ↔ x ≠ uint64Max := by
  have hle : x.toNat ≤ uint64Max.toNat := by
    have := x.toNat_lt
    have hmax : uint64Max.toNat = 2 ^ 64 - 1 := rfl
    omega
  rw [UInt64.lt_iff_toNat_lt, ne_eq, ← UInt64.toNat_inj]
  omega

theorem foldl_victim (l : List ℕ) (best : ℕ × UInt64) :
    let r := l.foldl (fun best id => if c.get id < best.2 then (id, c.get id) else best) best
    (r = best ∧ ∀ id ∈ l, ¬ c.get id < best.2) ∨ (r.1 ∈ l ∧ c.get r.1 < best.2) := by
  induction l generalizing best with
  | nil => simp
  | cons id l ih =>
    rw [List.foldl_cons]
    by_cases hless : c.get id < best.2
    · rw [if_pos hless]
      refine Or.inr ?_
      rcases ih (id, c.get id) with ⟨hsame, -⟩ | ⟨hmem, hlt⟩
      · rw [hsame]
        exact ⟨List.mem_cons_self, hless⟩
      · exact ⟨List.mem_cons_of_mem _ hmem, UInt64.lt_trans hlt hless⟩
    · rw [if_neg hless]
      rcases ih best with ⟨hsame, hnone⟩ | ⟨hmem, hlt⟩
      · refine Or.inl ⟨hsame, fun i hi => ?_⟩
        rcases List.mem_cons.mp hi with rfl | hi
        · exact hless
        · exact hnone i hi
      · exact Or.inr ⟨List.mem_cons_of_mem _ hmem, hlt⟩

theorem victim_cases (hot : UnorderedSet ℕ) :
    ((findVictim c hot).1 = 0 ∧ ∀ id ∈ hot, c.get id = uint64Max) ∨
      (findVictim c hot).1 ∈ hot ∧ c.get (findVictim c hot).1 ≠ uint64Max := by
  rcases foldl_victim (c := c) hot.order (0, uint64Max) with ⟨hsame, hnone⟩ | ⟨hmem, hlt⟩
  · refine Or.inl ⟨congrArg Prod.fst hsame, fun id hid => ?_⟩
    exact not_not.mp (lt_uint64Max.not.mp (hnone id hid))
  · exact Or.inr ⟨hmem, lt_uint64Max.mp hlt⟩

theorem stuck_erase (hot : UnorderedSet ℕ) :
    stuck c (hot.erase (findVictim c hot).1).order = stuck c hot.order := by
  have herase : (hot.erase (findVictim c hot).1).order =
      hot.order.filter (· != (findVictim c hot).1) := hot.nodup.erase_eq_filter _
  rw [stuck, stuck, herase, List.filter_filter]
  refine List.filter_congr fun id _ => ?_
  by_cases hid : id = (findVictim c hot).1
  · have hfree : ¬ (c.get id = uint64Max ∧ id ≠ 0) := by
      rcases victim_cases (c := c) hot with ⟨hzero, -⟩ | ⟨-, hless⟩
      · exact fun h => h.2 (hid.trans hzero)
      · exact fun h => hless (hid ▸ h.1)
    simp [hfree]
  · simp [hid]

theorem victim_mem (hmore : (stuck c hot.order).length < hot.order.length) :
    (findVictim c hot).1 ∈ hot := by
  rcases victim_cases (c := c) hot with ⟨hzero, hall⟩ | ⟨hmem, -⟩
  · rw [hzero]
    by_contra hout
    have hstuck : stuck c hot.order = hot.order := by
      refine List.filter_eq_self.mpr fun id hid => ?_
      have hne : id ≠ 0 := fun heq => hout (heq ▸ hid)
      simp [hall id hid, hne]
    rw [hstuck] at hmore
    exact absurd hmore (Nat.lt_irrefl _)
  · exact hmem

theorem trim_ends (hfits : (stuck c hot.order).length ≤ maxHotSegments) :
    ∃ fuel hot', trim c maxHotSegments fuel hot = some hot' ∧
      hot'.order.length ≤ maxHotSegments ∧ (∀ id ∈ hot', id ∈ hot) ∧
      (hot.order.length ≤ maxHotSegments → hot' = hot) := by
  -- each turn removes one segment
  induction hn : hot.order.length generalizing hot with
  | zero => exact ⟨1, hot, by simp [trim, hn], by omega, fun _ hid => hid, fun _ => rfl⟩
  | succ n ih =>
    by_cases hmore : hot.order.length > maxHotSegments
    · have hvictim : (findVictim c hot).1 ∈ hot := victim_mem (by omega)
      have hlength : (hot.erase (findVictim c hot).1).order.length = n := by
        rw [UnorderedSet.erase, List.length_erase_of_mem hvictim, hn]
        rfl
      obtain ⟨fuel, hot', htrim, hle, hsub, -⟩ := ih (by rwa [stuck_erase]) hlength
      refine ⟨fuel + 1, hot', by rw [trim, if_pos hmore, htrim], hle, fun id hid => ?_,
        fun hsmall => by omega⟩
      exact (mem_erase.mp (hsub id hid)).2
    · exact ⟨1, hot, by rw [trim, if_neg hmore], by omega, fun _ hid => hid, fun _ => rfl⟩

theorem trim_none (hstuck : maxHotSegments < (stuck c hot.order).length) (fuel : ℕ) :
    trim c maxHotSegments fuel hot = none := by
  induction fuel generalizing hot with
  | zero => rfl
  | succ fuel ih =>
    have hle : (stuck c hot.order).length ≤ hot.order.length := List.length_filter_le _ _
    rw [trim, if_pos (by omega)]
    exact ih (by rwa [stuck_erase])

theorem trim_eq {fuel : ℕ} {hot' : UnorderedSet ℕ} (hfits : hot.order.length ≤ maxHotSegments)
    (htrim : trim c maxHotSegments fuel hot = some hot') : hot' = hot := by
  cases fuel with
  | zero => cases htrim
  | succ fuel =>
    rw [trim, if_neg (by omega)] at htrim
    exact (Option.some.inj htrim).symm

/-! The whole evaluation. -/

def reached (c : AccessCounters) (hotThreshold : UInt64) : List ℕ :=
  c.ids.order.filter (hotThreshold ≤ c.count ·)

theorem mem_reached {id : ℕ} : id ∈ reached c hotThreshold ↔ Reached c hotThreshold id := by
  rw [reached, List.mem_filter, decide_eq_true_eq]
  exact Iff.rfl

theorem mem_newcomers {id : ℕ} :
    id ∈ newcomers c hotThreshold hot ↔ Reached c hotThreshold id ∧ id ∉ hot := by
  rw [newcomers, List.mem_filter, decide_eq_true_eq, Reached, and_assoc]
  exact Iff.rfl

def reclassified (h : HashPolicy ℕ) (c : AccessCounters) (hotThreshold : UInt64)
    (maxHotSegments : ℕ) (hot : UnorderedSet ℕ) : UnorderedSet ℕ :=
  demote c hotThreshold (promote h c hotThreshold maxHotSegments hot)

theorem reclassified_perm :
    (reclassified h c hotThreshold maxHotSegments hot).order.Perm
      ((hot.order ++ (newcomers c hotThreshold hot).take (maxHotSegments - hot.order.length)).filter
        (Reached c hotThreshold ·)) := by
  rw [reclassified, demote_order]
  exact (promote_perm hot).filter _

theorem mem_reclassified {id : ℕ} :
    id ∈ reclassified h c hotThreshold maxHotSegments hot ↔ Reached c hotThreshold id ∧ (id ∈ hot ∨
      id ∈ (newcomers c hotThreshold hot).take (maxHotSegments - hot.order.length)) := by
  rw [mem_def, reclassified_perm.mem_iff, List.mem_filter, List.mem_append, decide_eq_true_eq,
    and_comm, mem_def]

theorem length_reclassified_le :
    (reclassified h c hotThreshold maxHotSegments hot).order.length ≤
      (reached c hotThreshold).length := by
  refine (List.subperm_of_subset (UnorderedSet.nodup _) fun id hid => ?_).length_le
  exact mem_reached.mpr (mem_reclassified.mp hid).1

/-- The promotions leave no segment out just when the hot set has room for all of them. -/
theorem reclassified_complete_iff :
    (∀ id, id ∈ reclassified h c hotThreshold maxHotSegments hot ↔ Reached c hotThreshold id) ↔
      newcomers c hotThreshold hot = [] ∨
        hot.order.length + (newcomers c hotThreshold hot).length ≤ maxHotSegments := by
  have hroom : (newcomers c hotThreshold hot = [] ∨
      hot.order.length + (newcomers c hotThreshold hot).length ≤ maxHotSegments) ↔
        (newcomers c hotThreshold hot).length ≤ maxHotSegments - hot.order.length := by
    rw [← List.length_eq_zero_iff]
    omega
  rw [hroom]
  constructor
  · intro hall
    have hsub : newcomers c hotThreshold hot ⊆
        (newcomers c hotThreshold hot).take (maxHotSegments - hot.order.length) := by
      intro id hid
      have hnew := mem_newcomers.mp hid
      have hmem := (mem_reclassified.mp ((hall id).mpr hnew.1)).2
      exact hmem.resolve_left hnew.2
    have hnodup : (newcomers c hotThreshold hot).Nodup := c.ids.nodup.filter _
    have hle := (List.subperm_of_subset hnodup hsub).length_le
    rw [List.length_take] at hle
    omega
  · intro hfits id
    rw [mem_reclassified, List.take_of_length_le hfits, mem_newcomers]
    by_cases hid : id ∈ hot <;> simp [hid]

theorem stuck_reclassified_le_iff :
    (stuck c (reclassified h c hotThreshold maxHotSegments hot).order).length ≤ maxHotSegments ↔
      (stuck c (hot.order.filter (Reached c hotThreshold ·))).length ≤ maxHotSegments := by
  have hlength (l : List ℕ) : (stuck c l).length ≤ l.length := List.length_filter_le _ _
  have hperm : (reclassified h c hotThreshold maxHotSegments hot).order.Perm _ := reclassified_perm
  by_cases hroom : hot.order.length < maxHotSegments
  · have hnew := Nat.le_trans (Nat.le_of_eq hperm.length_eq) (List.length_filter_le _ _)
    rw [List.length_append, List.length_take] at hnew
    have hold := List.length_filter_le (Reached c hotThreshold ·) hot.order
    have hstuck := hlength (reclassified h c hotThreshold maxHotSegments hot).order
    have hstuck' := hlength (hot.order.filter (Reached c hotThreshold ·))
    omega
  · rw [Nat.sub_eq_zero_of_le (Nat.not_lt.mp hroom), List.take_zero, List.append_nil] at hperm
    rw [stuck, stuck, (hperm.filter _).length_eq]

theorem evaluateHotCold_eq_some_iff {fuel : ℕ} {t t' : Tracking} :
    evaluateHotCold h fuel hotThreshold maxHotSegments t = some t' ↔
      trim t.counters maxHotSegments fuel
        (reclassified h t.counters hotThreshold maxHotSegments t.hot) = some t'.hot ∧
      t'.counters = { t.counters with ids := t.counters.ids.clear } := by
  rw [evaluateHotCold, Option.map_eq_some_iff]
  constructor
  · rintro ⟨hot, htrim, rfl⟩
    exact ⟨htrim, rfl⟩
  · rintro ⟨htrim, hcounters⟩
    refine ⟨t'.hot, htrim, ?_⟩
    rw [← hcounters]

theorem recordAccess_counters (h : HashPolicy ℕ) (ids : List ℕ) (t : Tracking) (id : ℕ) :
    let c := (ids.foldl (recordAccess h) t).counters
    (id ∈ c.ids ↔ id ∈ t.counters.ids ∨ id ∈ ids) ∧
      c.get id = t.counters.get id + UInt64.ofNat (ids.count id) := by
  induction ids generalizing t with
  | nil => simp
  | cons j ids ih =>
    obtain ⟨hids, hcount⟩ := ih (recordAccess h t j)
    have hget : (recordAccess h t j).counters.get id =
        t.counters.get id + if id = j then 1 else 0 := by
      by_cases hid : id = j
      · simp [recordAccess, AccessCounters.get, hid]
      · simp [recordAccess, AccessCounters.get, hid]
    refine ⟨?_, ?_⟩
    · rw [List.foldl_cons, hids]
      simp only [recordAccess, mem_insert, List.mem_cons]
      tauto
    · rw [List.foldl_cons, hcount, hget]
      by_cases hid : id = j
      · subst hid
        rw [if_pos rfl, List.count_cons_self, Nat.add_comm, UInt64.ofNat_add, UInt64.add_assoc]
        rfl
      · rw [if_neg hid, List.count_cons_of_ne (Ne.symm hid), UInt64.add_zero]

theorem reached_iff_accessed {fuel : ℕ} {t t' : Tracking}
    (heval : evaluateHotCold h fuel hotThreshold maxHotSegments t = some t') (ids : List ℕ)
    (threshold : UInt64) (id : ℕ) :
    Reached (ids.foldl (recordAccess h) t').counters threshold id ↔
      id ∈ ids ∧ threshold ≤ UInt64.ofNat (ids.count id) := by
  obtain ⟨-, hcounters⟩ := evaluateHotCold_eq_some_iff.mp heval
  obtain ⟨hids, hcount⟩ := recordAccess_counters h ids t' id
  have hcleared : id ∉ t'.counters.ids := by
    rw [hcounters]
    exact not_mem_clear
  have hzero : t'.counters.get id = 0 := if_neg hcleared
  rw [hzero, UInt64.zero_add] at hcount
  rw [Reached, hids, or_iff_right hcleared]
  refine and_congr_right fun hmem => ?_
  rw [← hcount, AccessCounters.get, if_pos (hids.mpr (Or.inr hmem))]

/-- An evaluation ends with at most the allowed number of hot segments, each of which has reached
the threshold, and with all that have reached it if they are not too many, just when stale hot
segments keep no newcomer out and the counters leave the trimming a victim. -/
theorem evaluateHotCold_correct_iff (h : HashPolicy ℕ) (hotThreshold : UInt64)
    (maxHotSegments : ℕ) (t : Tracking) :
    (∃ fuel t', evaluateHotCold h fuel hotThreshold maxHotSegments t = some t' ∧
      t'.hot.order.length ≤ maxHotSegments ∧
      (∀ id ∈ t'.hot, Reached t.counters hotThreshold id) ∧
      ((reached t.counters hotThreshold).length ≤ maxHotSegments →
        ∀ id, id ∈ t'.hot ↔ Reached t.counters hotThreshold id)) ↔
    ((reached t.counters hotThreshold).length ≤ maxHotSegments →
      newcomers t.counters hotThreshold t.hot = [] ∨
        t.hot.order.length + (newcomers t.counters hotThreshold t.hot).length ≤ maxHotSegments) ∧
    (stuck t.counters (t.hot.order.filter (Reached t.counters hotThreshold ·))).length ≤
      maxHotSegments := by
  rw [← stuck_reclassified_le_iff (h := h)]
  constructor
  · rintro ⟨fuel, t', heval, -, -, hall⟩
    obtain ⟨htrim, -⟩ := evaluateHotCold_eq_some_iff.mp heval
    constructor
    · intro hfew
      have hsame := trim_eq (Nat.le_trans length_reclassified_le hfew) htrim
      rw [← reclassified_complete_iff (h := h), ← hsame]
      exact hall hfew
    · by_contra hmany
      rw [trim_none (Nat.not_le.mp hmany)] at htrim
      cases htrim
  · rintro ⟨hroom, hstuck⟩
    obtain ⟨fuel, hot', htrim, hle, hsub, hsame⟩ := trim_ends hstuck
    refine ⟨fuel, ⟨{ t.counters with ids := t.counters.ids.clear }, hot'⟩,
      evaluateHotCold_eq_some_iff.mpr ⟨htrim, rfl⟩, hle, fun id hid => ?_, fun hfew => ?_⟩
    · exact (mem_reclassified.mp (hsub id hid)).1
    · rw [hsame (Nat.le_trans length_reclassified_le hfew), reclassified_complete_iff]
      exact hroom hfew

/-- Segment 1 is hot from the period before, segment 2 was accessed in this one. -/
def staleHot : Tracking where
  counters := ⟨⟨1, [2], by decide⟩, fun _ => 1⟩
  hot := ⟨1, [1], by decide⟩

/-- Two hot segments whose counters cannot be told from the start of the search. -/
def saturated : Tracking where
  counters := ⟨⟨1, [1, 2], by decide⟩, fun _ => uint64Max⟩
  hot := ⟨1, [1, 2], by decide⟩

/-- A stale hot segment keeps a newcomer out of a hot set that ends empty, and a trimming of
saturated counters does not end. -/
theorem newcomer_left_out :
    ((evaluateHotCold (frontPolicy ℕ) 1 1 1 staleHot).map fun t => t.hot.order) = some [] ∧
      reached staleHot.counters 1 = [2] ∧
      ∀ fuel, evaluateHotCold (frontPolicy ℕ) fuel 1 1 saturated = none := by
  refine ⟨by decide, by decide, fun fuel => ?_⟩
  rw [evaluateHotCold, Option.map_eq_none_iff]
  exact trim_none (by decide) fuel

end ParaKV.Segment.HotCold
