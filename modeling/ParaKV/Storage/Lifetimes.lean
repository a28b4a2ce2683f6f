/- GID: ParaKV/Storage/Lifetimes
   source: parakv/core/kvcache_storage/mocked_inmemory_kvcache_storage.cc
   digest: How long an entry of the in-memory backend lives, and where its clock arithmetic errs. -/

import ParaKV.Lib.StepRun
import ParaKV.Storage.Backend

/-!
An entry has a lifetime, which its `Put` chooses, and is counted from the moment it was last written
or touched. The backend keeps the end of that time in one 64-bit number, with 0 for no end. A touch
moves the end by the default lifetime, whatever the entry's own lifetime is.
-/

set_option autoImplicit false

namespace ParaKV.Storage.Lifetimes

open Lib.LogMap Lib.StepRun Index.Key Storage.Backend Storage.Backend.Mocked

/-! Calls with their clock readings. -/

inductive Call
  | put (now now' : ℕ) (key value metadata : Bytes) (opts : WriteOptions)
  | get (now : ℕ) (key : Bytes) (opts : ReadOptions)
  | delete (key : Bytes)

inductive Reply
  | wrote (result : WriteResult)
  | found (result : ReadResult)
  deriving DecidableEq

variable (options : Options)

def exec (store : Store) : Call → Reply × Store
  | .put now now' key value metadata opts =>
    let r := put options now now' key value metadata opts store
    (.wrote r.1, r.2)
  | .get now key opts =>
    let r := get options now key opts store
    (.found r.1, r.2)
  | .delete key =>
    let r := delete key store
    (.wrote r.1, r.2)

/-- The readings of a call follow each other, the first one after `time`. -/
def InOrder (time : ℕ) : Call → Prop
  | .put now now' _ _ _ _ => time ≤ now ∧ now ≤ now'
  | .get now _ _ => time ≤ now
  | .delete _ => True

instance (time : ℕ) (c : Call) : Decidable (InOrder time c) :=
  match c with
  | .put _ _ _ _ _ _ => inferInstanceAs (Decidable (_ ∧ _))
  | .get _ _ _ => inferInstanceAs (Decidable (_ ≤ _))
  | .delete _ => isTrue trivial

def lastReading (time : ℕ) : Call → ℕ
  | .put _ now' _ _ _ _ => now'
  | .get now _ _ => now
  | .delete _ => time

/-! The lifetimes. -/

structure Lease where
  value : Bytes
  metadata : Bytes
  lifetime : ℕ
  since : ℕ

/-- Before the end of the lifetime; a lifetime of 0 has no end. -/
def Lease.Alive (e : Lease) (t : ℕ) : Prop := e.lifetime = 0 ∨ t < e.since + e.lifetime

instance (e : Lease) (t : ℕ) : Decidable (e.Alive t) := inferInstanceAs (Decidable (_ ∨ _))

abbrev Ledger := Bytes → Option Lease

/-- The key was put, has not been deleted since, and its lifetime has not ended. -/
def Present (ledger : Ledger) (key : Bytes) (t : ℕ) : Prop := ∃ e ∈ ledger key, e.Alive t

instance (ledger : Ledger) (key : Bytes) (t : ℕ) : Decidable (Present ledger key t) :=
  match h : ledger key with
  | none => isFalse fun ⟨_, he, _⟩ => by simp [h] at he
  | some e => decidable_of_iff (e.Alive t) (by simp [Present, h])

def lifetimeOf (opts : WriteOptions) : ℕ :=
  if opts.ttlMs > 0 then opts.ttlMs else options.defaultTtlMs

def TooLarge (value : Bytes) : Prop :=
  options.maxValueBytes > 0 ∧ value.length > options.maxValueBytes

instance (value : Bytes) : Decidable (TooLarge options value) := inferInstanceAs (Decidable (_ ∧ _))

/-- A `Put` is accepted unless the value is too large, or the key is there and must not be
overwritten. A hit that touches counts the lifetime again. -/
def Ledger.after (ledger : Ledger) : Call → Ledger
  | .put now now' key value metadata opts =>
    if TooLarge options value ∨ opts.overwrite = false ∧ Present ledger key now' then ledger
    else Function.update ledger key (some ⟨value, metadata, lifetimeOf options opts, now⟩)
  | .get now key opts =>
    if opts.touchOnHit = true ∧ Present ledger key now then
      Function.update ledger key ((ledger key).map fun e => { e with since := now })
    else ledger
  | .delete key => Function.update ledger key none

/-- A `Get` hits the keys that are there, with their value and metadata, and a `Put` that must not
overwrite them says so. -/
def Answers (ledger : Ledger) : Call → Reply → Prop
  | .put _ now' key value _ opts, .wrote r =>
    opts.overwrite = false → ¬ TooLarge options value →
      (r.code = .alreadyExists ↔ Present ledger key now')
  | .get now key opts, .found r =>
    (r.code = .ok ↔ Present ledger key now) ∧
      (∀ e ∈ ledger key, e.Alive now →
        r.metadata = e.metadata ∧ (opts.includeValue = true → r.value = e.value)) ∧
      (¬ Present ledger key now → r.code = .notFound)
  | .delete _, _ => True
  | _, _ => False

/-- The end of a lifetime fits into 64 bits, and the entries touched live for the default
lifetime or for ever. -/
def Plain (ledger : Ledger) : Call → Prop
  | .put now _ _ _ _ opts => now + lifetimeOf options opts < 2 ^ 64
  | .get now key opts => opts.touchOnHit = true → ∀ e ∈ ledger key, e.Alive now →
      e.lifetime = 0 ∨ e.lifetime = options.defaultTtlMs ∧ now + e.lifetime < 2 ^ 64
  | .delete _ => True

instance (ledger : Ledger) (c : Call) : Decidable (Plain options ledger c) :=
  match c with
  | .put _ _ _ _ _ _ => inferInstanceAs (Decidable (_ < _))
  | .get now key opts => inferInstanceAs (Decidable (opts.touchOnHit = true →
      ∀ e ∈ ledger key, e.Alive now →
        e.lifetime = 0 ∨ e.lifetime = options.defaultTtlMs ∧ now + e.lifetime < 2 ^ 64))
  | .delete _ => isTrue trivial

/-! The backend keeps the lifetimes. -/

def endOf (e : Lease) : ℕ := if e.lifetime = 0 then 0 else e.since + e.lifetime

def stored (e : Lease) : Entry := ⟨e.value, e.metadata, endOf e⟩

theorem expired_stored (e : Lease) (t : ℕ) : (stored e).expired t = false ↔ e.Alive t := by
  unfold Entry.expired stored endOf Lease.Alive
  split_ifs with h
  · simp [h]
  · simp only [decide_eq_false_iff_not]
    omega

theorem newEntry_eq {now : ℕ} {opts : WriteOptions} (value metadata : Bytes)
    (h : now + lifetimeOf options opts < 2 ^ 64) :
    newEntry options now value metadata opts =
      stored ⟨value, metadata, lifetimeOf options opts, now⟩ := by
  have hnew : newEntry options now value metadata opts = ⟨value, metadata,
      if lifetimeOf options opts > 0 then (now + lifetimeOf options opts) % 2 ^ 64 else 0⟩ := rfl
  rw [hnew, stored, endOf, Nat.mod_eq_of_lt h]
  by_cases hzero : lifetimeOf options opts = 0
  · simp [hzero]
  · simp [hzero, Nat.pos_of_ne_zero hzero]

/-- What the store has is what the ledger has; what it has dropped will never be alive again. -/
structure Keeps (time : ℕ) (ledger : Ledger) (store : Store) : Prop where
  held : ∀ key x, store.lookup key = some x → ∃ e ∈ ledger key, x = stored e
  gone : ∀ key, store.lookup key = none → ∀ e ∈ ledger key, ∀ t, time ≤ t → ¬ e.Alive t

variable {options} {time : ℕ} {ledger : Ledger} {store : Store}

theorem not_alive_later {e : Lease} {t t' : ℕ} (h : ¬ e.Alive t) (hle : t ≤ t') : ¬ e.Alive t' := by
  unfold Lease.Alive at h ⊢
  omega

theorem Keeps.later (h : Keeps time ledger store) {time' : ℕ} (hle : time ≤ time') :
    Keeps time' ledger store where
  held := h.held
  gone key hkey e he t ht := h.gone key hkey e he t (hle.trans ht)

/-- An entry that has not expired, as the calls look for it. -/
def Unexpired (store : Store) (key : Bytes) (t : ℕ) : Prop :=
  ∃ x ∈ store.lookup key, x.expired t = false

theorem Keeps.present_iff (h : Keeps time ledger store) (key : Bytes) {t : ℕ} (ht : time ≤ t) :
    Present ledger key t ↔ Unexpired store key t := by
  constructor
  · rintro ⟨e, he, halive⟩
    cases hkey : store.lookup key with
    | none => exact absurd halive (h.gone key hkey e he t ht)
    | some x =>
      obtain ⟨e', he', rfl⟩ := h.held key x hkey
      obtain rfl : e = e' := Option.some.inj (he.symm.trans he')
      exact ⟨stored e, hkey, (expired_stored e t).mpr halive⟩
  · rintro ⟨x, hx, hexpired⟩
    obtain ⟨e, he, rfl⟩ := h.held key x hx
    exact ⟨e, he, (expired_stored e t).mp hexpired⟩

theorem Keeps.insert (h : Keeps time ledger store) (key : Bytes) (e : Lease) :
    Keeps time (Function.update ledger key (some e)) (store.insert key (stored e)) where
  held key' x hx := by
    rw [lookup_insert_eq] at hx
    by_cases hk : key' = key
    · subst hk
      rw [if_pos rfl] at hx
      exact ⟨e, by simp, (Option.some.inj hx).symm⟩
    · rw [if_neg hk] at hx
      rw [Function.update_of_ne hk]
      exact h.held key' x hx
  gone key' hx e' he' := by
    rw [lookup_insert_eq] at hx
    by_cases hk : key' = key
    · simp [hk] at hx
    · rw [if_neg hk] at hx
      rw [Function.update_of_ne hk] at he'
      exact h.gone key' hx e' he'

theorem Keeps.erase (h : Keeps time ledger store) (key : Bytes) {ledger' : Ledger}
    (hother : ∀ k, k ≠ key → ledger' k = ledger k)
    (hover : ∀ e ∈ ledger' key, ¬ e.Alive time) : Keeps time ledger' (store.erase key) where
  held key' x hx := by
    rw [lookup_erase_eq] at hx
    by_cases hk : key' = key
    · simp [hk] at hx
    · rw [if_neg hk] at hx
      rw [hother key' hk]
      exact h.held key' x hx
  gone key' hx e' he' t ht := by
    rw [lookup_erase_eq] at hx
    by_cases hk : key' = key
    · subst hk
      exact not_alive_later (hover e' he') ht
    · rw [if_neg hk] at hx
      rw [hother key' hk] at he'
      exact h.gone key' hx e' he' t ht

theorem put_cases (options : Options) (store : Store) (now now' : ℕ) (key value metadata : Bytes)
    (opts : WriteOptions) :
    (TooLarge options value ∧ put options now now' key value metadata opts store =
      (⟨.valueTooLarge, "value exceeds backend limit"⟩, store)) ∨
    (¬ TooLarge options value ∧ (opts.overwrite = false ∧ Unexpired store key now') ∧
      put options now now' key value metadata opts store =
        (⟨.alreadyExists, "key already exists"⟩, store)) ∨
    ¬ TooLarge options value ∧ ¬ (opts.overwrite = false ∧ Unexpired store key now') ∧
      put options now now' key value metadata opts store =
        (⟨.ok, ""⟩, store.insert key (newEntry options now value metadata opts)) := by
  by_cases hlarge : TooLarge options value
  · exact Or.inl ⟨hlarge, if_pos hlarge⟩
  · refine Or.inr ?_
    simp only [put, if_neg (show ¬ (_ ∧ _) from hlarge), Unexpired]
    cases hkey : store.lookup key with
    | none => simp [hlarge]
    | some x => cases opts.overwrite <;> cases x.expired now' <;> simp [hlarge]

theorem put_kept {now now' : ℕ} {key value metadata : Bytes} {opts : WriteOptions}
    (h : Keeps time ledger store) (horder : time ≤ now ∧ now ≤ now') :
    Answers options ledger (.put now now' key value metadata opts)
        (exec options store (.put now now' key value metadata opts)).1 ∧
      (Plain options ledger (.put now now' key value metadata opts) →
        Keeps now' (ledger.after options (.put now now' key value metadata opts))
          (exec options store (.put now now' key value metadata opts)).2) := by
  have hle : time ≤ now' := horder.1.trans horder.2
  have hpresent := h.present_iff key hle
  simp only [Answers, exec, Ledger.after, Plain]
  rcases put_cases options store now now' key value metadata opts with
    ⟨hlarge, hput⟩ | ⟨hsmall, hthere, hput⟩ | ⟨hsmall, hfree, hput⟩
  · rw [hput, if_pos (Or.inl hlarge)]
    exact ⟨fun _ hsmall => absurd hlarge hsmall, fun _ => h.later hle⟩
  · rw [← hpresent] at hthere
    rw [hput, if_pos (Or.inr hthere)]
    exact ⟨fun _ _ => iff_of_true rfl hthere.2, fun _ => h.later hle⟩
  · rw [← hpresent] at hfree
    rw [hput, if_neg (not_or.mpr ⟨hsmall, hfree⟩)]
    refine ⟨fun hoverwrite _ => ?_, fun hfits => ?_⟩
    · exact iff_of_false (by simp) fun hthere => hfree ⟨hoverwrite, hthere⟩
    · rw [newEntry_eq options value metadata hfits]
      exact (h.later hle).insert key _

def afterHit (options : Options) (now : ℕ) (opts : ReadOptions) (x : Entry) : Entry :=
  if opts.touchOnHit = true ∧ x.expirationMs > 0 ∧ options.defaultTtlMs > 0 then
    { x with expirationMs := (now + options.defaultTtlMs) % 2 ^ 64 }
  else x

theorem afterHit_stored {now : ℕ} {opts : ReadOptions} {e : Lease}
    (hplain : opts.touchOnHit = true →
      e.lifetime = 0 ∨ e.lifetime = options.defaultTtlMs ∧ now + e.lifetime < 2 ^ 64) :
    afterHit options now opts (stored e) =
      stored (if opts.touchOnHit = true then { e with since := now } else e) := by
  by_cases htouch : opts.touchOnHit = true
  · by_cases hzero : e.lifetime = 0
    · simp [afterHit, stored, endOf, hzero, htouch]
    · obtain ⟨hdefault, hfits⟩ := (hplain htouch).resolve_left hzero
      have hpos : 0 < e.lifetime := Nat.pos_of_ne_zero hzero
      rw [hdefault] at hfits hpos
      simpa [afterHit, stored, endOf, htouch, hdefault, hpos, Nat.ne_of_gt hpos] using hfits
  · simp [afterHit, htouch]

theorem get_hit {now : ℕ} {key : Bytes} {opts : ReadOptions} {x : Entry}
    (hkey : store.lookup key = some x) (hlive : x.expired now = false) :
    Mocked.get options now key opts store =
      ({ code := .ok
         value := if opts.includeValue then x.value else []
         metadata := x.metadata
         expirationMs := (afterHit options now opts x).expirationMs },
        store.insert key (afterHit options now opts x)) := by
  simp only [Mocked.get, hkey, hlive, Bool.false_eq_true, if_false, afterHit]
  split_ifs <;> rfl

theorem get_kept {now : ℕ} {key : Bytes} {opts : ReadOptions} (h : Keeps time ledger store)
    (horder : time ≤ now) :
    Answers options ledger (.get now key opts) (exec options store (.get now key opts)).1 ∧
      (Plain options ledger (.get now key opts) →
        Keeps now (ledger.after options (.get now key opts))
          (exec options store (.get now key opts)).2) := by
  have hpresent := h.present_iff key horder
  simp only [Answers, exec, Ledger.after]
  cases hkey : store.lookup key with
  | none =>
    have habsent : ¬ Present ledger key now := by simp [hpresent, Unexpired, hkey]
    have hget : Mocked.get options now key opts store =
        ({ code := .notFound, message := "miss" }, store) := by
      simp only [Mocked.get, hkey]
    rw [hget, if_neg fun hp => habsent hp.2]
    refine ⟨⟨iff_of_false (by simp) habsent, fun e he halive => ?_, fun _ => rfl⟩,
      fun _ => h.later horder⟩
    exact absurd ⟨e, he, halive⟩ habsent
  | some x =>
    obtain ⟨e, he, rfl⟩ := h.held key x hkey
    have hsame : ∀ e' ∈ ledger key, e' = e := fun e' he' => Option.some.inj (he'.symm.trans he)
    by_cases halive : e.Alive now
    · have hthere : Present ledger key now := ⟨e, he, halive⟩
      rw [get_hit hkey ((expired_stored e now).mpr halive)]
      refine ⟨⟨iff_of_true rfl hthere, fun e' he' _ => ?_, fun habsent => absurd hthere habsent⟩,
        fun hplain => ?_⟩
      · rw [hsame e' he']
        exact ⟨rfl, fun hvalue => if_pos hvalue⟩
      · rw [afterHit_stored fun htouch => hplain htouch e he halive]
        have hkept := (h.later horder).insert key
          (if opts.touchOnHit = true then { e with since := now } else e)
        have hledger : (if opts.touchOnHit = true ∧ Present ledger key now then
            Function.update ledger key ((ledger key).map fun e => { e with since := now })
            else ledger) = Function.update ledger key
              (some (if opts.touchOnHit = true then { e with since := now } else e)) := by
          have hself : Function.update ledger key (some e) = ledger := by
            rw [← show ledger key = some e from he, Function.update_eq_self]
          by_cases htouch : opts.touchOnHit = true
          · simp [htouch, hthere, show ledger key = some e from he]
          · simp [htouch, hself]
        rw [hledger]
        exact hkept
    · have habsent : ¬ Present ledger key now := by
        rintro ⟨e', he', halive'⟩
        exact halive (hsame e' he' ▸ halive')
      have hexpired : (stored e).expired now = true := by
        simpa using mt (expired_stored e now).mp halive
      have hget : Mocked.get options now key opts store =
          ({ code := .notFound, message := "expired" }, store.erase key) := by
        simp [Mocked.get, hkey, hexpired]
      rw [hget, if_neg fun hp => habsent hp.2]
      refine ⟨⟨iff_of_false (by simp) habsent, fun e' he' halive' => ?_, fun _ => rfl⟩, fun _ => ?_⟩
      · exact absurd ⟨e', he', halive'⟩ habsent
      · refine (h.later horder).erase key (fun _ _ => rfl) fun e' he' => ?_
        rw [hsame e' he']
        exact halive

theorem delete_kept {key : Bytes} (h : Keeps time ledger store) :
    Keeps time (ledger.after options (.delete key)) (exec options store (.delete key)).2 := by
  have hstore : (exec options store (.delete key)).2 = store.erase key := by
    simp only [exec, Mocked.delete]
    cases hkey : store.lookup key with
    | none =>
      refine (Finmap.ext_lookup fun k => ?_).symm
      rw [lookup_erase_eq]
      split_ifs with hk
      · rw [hk, hkey]
      · rfl
    | some x => rfl
  rw [hstore]
  refine h.erase key (fun k hk => Function.update_of_ne hk _ _) fun e he => ?_
  simp [Ledger.after] at he

/-! Runs. -/

/-- The backend with the lifetimes of its entries, and the last clock reading. -/
structure Play where
  store : Store
  ledger : Ledger
  time : ℕ

def Play.initial : Play := ⟨∅, fun _ => none, 0⟩

def step (options : Options) (p : Play) (c : Call) : Option Play :=
  if InOrder p.time c then
    some ⟨(exec options p.store c).2, p.ledger.after options c, lastReading p.time c⟩
  else none

def PlainCall (options : Options) (p : Play) (c : Call) : Prop := Plain options p.ledger c

instance (options : Options) (p : Play) (c : Call) : Decidable (PlainCall options p c) :=
  inferInstanceAs (Decidable (Plain options p.ledger c))

theorem call_kept {c : Call} (h : Keeps time ledger store) (horder : InOrder time c) :
    Answers options ledger c (exec options store c).1 ∧
      (Plain options ledger c →
        Keeps (lastReading time c) (ledger.after options c) (exec options store c).2) := by
  cases c with
  | put now now' key value metadata opts => exact put_kept h horder
  | get now key opts => exact get_kept h horder
  | delete key => exact ⟨trivial, fun _ => delete_kept h⟩

theorem run_keeps {calls : List Call} {p : Play}
    (hrun : GuardedRun (step options) (PlainCall options) .initial calls p) :
    Keeps p.time p.ledger p.store := by
  refine hrun.invariant (I := fun _ p => Keeps p.time p.ledger p.store) ⟨?_, ?_⟩ ?_
  · intro key x hx
    simp [Play.initial] at hx
  · intro key _ e he
    simp [Play.initial] at he
  · intro calls p c p' h hplain hstep
    unfold step at hstep
    split_ifs at hstep with horder
    obtain rfl := Option.some.inj hstep
    exact (call_kept h horder).2 hplain

/-- After a run whose lifetimes end within 64 bits and whose touches are of entries with the default
lifetime, every call is answered by the lifetimes. -/
theorem lifetimes_respected (options : Options) {calls : List Call} {p : Play}
    (hrun : GuardedRun (step options) (PlainCall options) .initial calls p) {c : Call}
    (horder : InOrder p.time c) : Answers options p.ledger c (exec options p.store c).1 :=
  (call_kept (run_keeps hrun) horder).1

/-- A `Put` with a lifetime of its own, then a hit that touches. -/
def touchedRun : List Call :=
  [.put 0 0 [1] [7] [] { ttlMs := 10 }, .get 5 [1] { touchOnHit := true }]

def seen (options : Options) (t : ℕ) (p : Play) : Bool × Reply :=
  (decide (Present p.ledger [1] t), (exec options p.store (.get t [1] {})).1)

/-- A touch that does not prolong a lifetime of 10 ms, and one that is too long for 64 bits. -/
theorem live_entry_expired :
    (perform (step {}) .initial touchedRun).map (seen {} 12) =
      some (true, .found { code := .notFound, message := "expired" }) ∧
    (perform (step {}) .initial [.put 5 5 [1] [7] [] { ttlMs := 2 ^ 64 - 1 }]).map (seen {} 6) =
      some (true, .found { code := .notFound, message := "expired" }) := by
  decide +kernel

theorem lifetimes_respected_touched :
    ∃ p, GuardedRun (step { defaultTtlMs := 10 }) (PlainCall { defaultTtlMs := 10 }) .initial
        touchedRun p ∧ InOrder p.time (.get 12 [1] {}) ∧
      Answers { defaultTtlMs := 10 } p.ledger (.get 12 [1] {})
        (exec { defaultTtlMs := 10 } p.store (.get 12 [1] {})).1 := by
  have hperform : (performGuarded (step { defaultTtlMs := 10 }) (PlainCall { defaultTtlMs := 10 })
      .initial touchedRun).map (·.time) = some 5 := by decide +kernel
  obtain ⟨p, hrun, htime⟩ := exists_guardedRun hperform
  have horder : InOrder p.time (.get 12 [1] {}) := by
    rw [htime]
    decide
  exact ⟨p, hrun, horder, lifetimes_respected _ hrun horder⟩

end ParaKV.Storage.Lifetimes
