import Mathlib.Logic.Function.Basic
import Mathlib.Order.Basic
import Mathlib.Order.Nat

/-!
# Open addressing with tombstones

A table maps an index to a slot that is empty, a tombstone, or holds a key with a value, and
`pos k n` is the index of the `n`-th probe for the key `k`. `Reachable` is the invariant of such a
table: no live key has an empty slot before it on its own probe sequence. A lookup that answers
at `Target` keeps it, whether the caller then writes the key there or leaves a tombstone, and the
keys a table `Holds` change exactly as in a finite map.
-/

universe u v w

namespace OpenAddressing

inductive Slot (K : Type v) (V : Type w)
  | empty
  | tomb
  | live (k : K) (v : V)

variable {ι : Type u} {K : Type v} {V : Type w} {pos : K → ℕ → ι} {T : ι → Slot K V}
  {k k' : K} {v v' x : V} {i j : ι} {n : ℕ}

/-- The first `n` probes for `k` meet neither an empty slot nor `k` itself. -/
def Passes (pos : K → ℕ → ι) (T : ι → Slot K V) (k : K) (n : ℕ) : Prop :=
  ∀ m < n, T (pos k m) ≠ .empty ∧ ∀ v, T (pos k m) ≠ .live k v

/-- Every live key is met by its own probes, once, and before any empty slot. -/
def Reachable (pos : K → ℕ → ι) (T : ι → Slot K V) : Prop :=
  ∀ i k v, T i = .live k v → ∃ n, pos k n = i ∧ Passes pos T k n

def Holds (T : ι → Slot K V) (k : K) (v : V) : Prop := ∃ i, T i = .live k v

/-- The slot at which a lookup of `k` answers: the one that holds `k`, or else the first
tombstone before the first empty slot, or else that empty slot. -/
inductive Target (pos : K → ℕ → ι) (T : ι → Slot K V) (k : K) : ι → Prop
  | hit {n : ℕ} {v : V} (hp : Passes pos T k n) (h : T (pos k n) = .live k v) :
      Target pos T k (pos k n)
  | fresh {n : ℕ} (hp : Passes pos T k n) (h : T (pos k n) = .empty)
      (hno : ∀ m < n, T (pos k m) ≠ .tomb) : Target pos T k (pos k n)
  | reuse {n m : ℕ} (hp : Passes pos T k n) (h : T (pos k n) = .empty) (hm : m < n)
      (ht : T (pos k m) = .tomb) (hno : ∀ l < m, T (pos k l) ≠ .tomb) : Target pos T k (pos k m)

theorem Passes.mono {m : ℕ} (h : Passes pos T k n) (hmn : m ≤ n) : Passes pos T k m :=
  fun l hl => h l (hl.trans_le hmn)

theorem Reachable.index_unique (hT : Reachable pos T) (hi : T i = .live k v)
    (hj : T j = .live k v') : i = j := by
  obtain ⟨m, rfl, hm⟩ := hT i k v hi
  obtain ⟨n, rfl, hn⟩ := hT j k v' hj
  rcases lt_trichotomy m n with hlt | heq | hlt
  · exact absurd hi ((hn m hlt).2 v)
  · rw [heq]
  · exact absurd hj ((hm n hlt).2 v')

theorem Reachable.value_unique (hT : Reachable pos T) (h : Holds T k v) (h' : Holds T k v') :
    v = v' := by
  obtain ⟨i, hi⟩ := h
  obtain ⟨j, hj⟩ := h'
  have hij := hT.index_unique hi hj
  subst hij
  rw [hi] at hj
  cases hj
  rfl

theorem Reachable.not_holds_of_passes (hT : Reachable pos T) (hp : Passes pos T k n)
    (he : T (pos k n) = .empty) : ¬ Holds T k v := by
  rintro ⟨j, hj⟩
  obtain ⟨m, rfl, hm⟩ := hT j k v hj
  rcases lt_trichotomy m n with hlt | heq | hlt
  · exact (hp m hlt).2 v hj
  · subst heq
    rw [he] at hj
    cases hj
  · exact (hm n hlt).1 he

theorem Reachable.target_cases (hT : Reachable pos T) (h : Target pos T k i) :
    (∃ v, T i = .live k v) ∨ ((T i = .empty ∨ T i = .tomb) ∧ ∀ v, ¬ Holds T k v) := by
  cases h with
  | hit hp hv => exact Or.inl ⟨_, hv⟩
  | fresh hp he hno => exact Or.inr ⟨Or.inl he, fun v => hT.not_holds_of_passes hp he⟩
  | reuse hp he hm ht hno => exact Or.inr ⟨Or.inr ht, fun v => hT.not_holds_of_passes hp he⟩

theorem Reachable.target_of_holds (hT : Reachable pos T) (h : Target pos T k i)
    (hk : Holds T k v) : T i = .live k v := by
  rcases hT.target_cases h with ⟨w, hw⟩ | ⟨_, hno⟩
  · rw [hw, hT.value_unique hk ⟨i, hw⟩]
  · exact absurd hk (hno v)

theorem Reachable.target_ne_live (hT : Reachable pos T) (h : Target pos T k i) (hk : k' ≠ k) :
    T i ≠ .live k' v := by
  intro hi
  rcases hT.target_cases h with ⟨w, hw⟩ | ⟨he | ht, _⟩
  · rw [hw] at hi
    cases hi
    exact hk rfl
  · rw [he] at hi
    cases hi
  · rw [ht] at hi
    cases hi

/-- The first probe that reaches a target meets no empty slot and not `k` before it. -/
theorem Target.first_probe (h : Target pos T k i) :
    ∃ n, pos k n = i ∧ Passes pos T k n ∧ ∀ m < n, pos k m ≠ i := by
  cases h with
  | @hit n v hp hv =>
    refine ⟨n, rfl, hp, fun m hm heq => (hp m hm).2 v ?_⟩
    rw [heq, hv]
  | @fresh n hp he hno =>
    refine ⟨n, rfl, hp, fun m hm heq => (hp m hm).1 ?_⟩
    rw [heq, he]
  | @reuse n m hp he hm ht hno =>
    refine ⟨m, rfl, hp.mono hm.le, fun l hl heq => hno l hl ?_⟩
    rw [heq, ht]

theorem Passes.stop_unique {m : ℕ} (hm : Passes pos T k m) (hn : Passes pos T k n)
    (hsm : T (pos k m) = .empty ∨ ∃ v, T (pos k m) = .live k v)
    (hsn : T (pos k n) = .empty ∨ ∃ v, T (pos k n) = .live k v) : m = n := by
  rcases lt_trichotomy m n with hlt | heq | hlt
  · rcases hsm with he | ⟨v, hv⟩
    · exact absurd he (hn m hlt).1
    · exact absurd hv ((hn m hlt).2 v)
  · exact heq
  · rcases hsn with he | ⟨v, hv⟩
    · exact absurd he (hm n hlt).1
    · exact absurd hv ((hm n hlt).2 v)

theorem first_tomb_unique {l m : ℕ} (hl : T (pos k l) = .tomb) (hm : T (pos k m) = .tomb)
    (hnl : ∀ i < l, T (pos k i) ≠ .tomb) (hnm : ∀ i < m, T (pos k i) ≠ .tomb) : l = m := by
  rcases lt_trichotomy l m with hlt | heq | hlt
  · exact absurd hl (hnm l hlt)
  · exact heq
  · exact absurd hm (hnl m hlt)

theorem Target.unique (hi : Target pos T k i) (hj : Target pos T k j) : i = j := by
  cases hi with
  | @hit n v hp hv =>
    cases hj with
    | @hit n' v' hp' hv' => rw [hp.stop_unique hp' (.inr ⟨v, hv⟩) (.inr ⟨v', hv'⟩)]
    | @fresh n' hp' he' hno' =>
      rw [hp.stop_unique hp' (.inr ⟨v, hv⟩) (.inl he'), he'] at hv
      cases hv
    | @reuse n' m' hp' he' hm' ht' hno' =>
      rw [hp.stop_unique hp' (.inr ⟨v, hv⟩) (.inl he'), he'] at hv
      cases hv
  | @fresh n hp he hno =>
    cases hj with
    | @hit n' v' hp' hv' =>
      rw [hp.stop_unique hp' (.inl he) (.inr ⟨v', hv'⟩), hv'] at he
      cases he
    | @fresh n' hp' he' hno' => rw [hp.stop_unique hp' (.inl he) (.inl he')]
    | @reuse n' m' hp' he' hm' ht' hno' =>
      obtain rfl := hp.stop_unique hp' (.inl he) (.inl he')
      exact absurd ht' (hno m' hm')
  | @reuse n m hp he hm ht hno =>
    cases hj with
    | @hit n' v' hp' hv' =>
      rw [hp.stop_unique hp' (.inl he) (.inr ⟨v', hv'⟩), hv'] at he
      cases he
    | @fresh n' hp' he' hno' =>
      obtain rfl := hp.stop_unique hp' (.inl he) (.inl he')
      exact absurd ht (hno' m hm)
    | @reuse n' m' hp' he' hm' ht' hno' => rw [first_tomb_unique ht ht' hno hno']

section Update

variable [DecidableEq ι]

/-- Writing a key where its lookup answered keeps every live key reachable. -/
theorem Reachable.insert (hT : Reachable pos T) (h : Target pos T k i) :
    Reachable pos (Function.update T i (.live k x)) := by
  intro j k' v' hj
  by_cases hji : j = i
  · subst hji
    rw [Function.update_self] at hj
    cases hj
    obtain ⟨n, hn, hp, hfirst⟩ := h.first_probe
    refine ⟨n, hn, fun m hm => ?_⟩
    rw [Function.update_of_ne (hfirst m hm)]
    exact hp m hm
  · rw [Function.update_of_ne hji] at hj
    have hk : k' ≠ k := by
      rintro rfl
      exact hji (hT.index_unique hj (hT.target_of_holds h ⟨j, hj⟩))
    obtain ⟨n, hn, hp⟩ := hT j k' v' hj
    refine ⟨n, hn, fun m hm => ?_⟩
    by_cases hmi : pos k' m = i
    · rw [hmi, Function.update_self]
      exact ⟨by simp, by intro v hv; cases hv; exact hk rfl⟩
    · rw [Function.update_of_ne hmi]
      exact hp m hm

theorem Reachable.holds_insert (hT : Reachable pos T) (h : Target pos T k i) :
    Holds (Function.update T i (.live k x)) k' v' ↔
      (k' = k ∧ v' = x) ∨ (k' ≠ k ∧ Holds T k' v') := by
  constructor
  · rintro ⟨j, hj⟩
    by_cases hji : j = i
    · subst hji
      rw [Function.update_self] at hj
      cases hj
      exact Or.inl ⟨rfl, rfl⟩
    · rw [Function.update_of_ne hji] at hj
      refine Or.inr ⟨?_, j, hj⟩
      rintro rfl
      exact hji (hT.index_unique hj (hT.target_of_holds h ⟨j, hj⟩))
  · rintro (⟨rfl, rfl⟩ | ⟨hk, j, hj⟩)
    · exact ⟨i, Function.update_self ..⟩
    · have hji : j ≠ i := by
        rintro rfl
        exact hT.target_ne_live h hk hj
      exact ⟨j, by rw [Function.update_of_ne hji, hj]⟩

theorem Reachable.bury (hT : Reachable pos T) (i : ι) :
    Reachable pos (Function.update T i .tomb) := by
  intro j k v hj
  have hji : j ≠ i := by
    rintro rfl
    rw [Function.update_self] at hj
    cases hj
  rw [Function.update_of_ne hji] at hj
  obtain ⟨n, hn, hp⟩ := hT j k v hj
  refine ⟨n, hn, fun m hm => ?_⟩
  by_cases hmi : pos k m = i
  · rw [hmi, Function.update_self]
    exact ⟨by simp, by simp⟩
  · rw [Function.update_of_ne hmi]
    exact hp m hm

theorem Reachable.holds_bury (hT : Reachable pos T) (h : Target pos T k i) :
    Holds (Function.update T i .tomb) k' v' ↔ k' ≠ k ∧ Holds T k' v' := by
  constructor
  · rintro ⟨j, hj⟩
    have hji : j ≠ i := by
      rintro rfl
      rw [Function.update_self] at hj
      cases hj
    rw [Function.update_of_ne hji] at hj
    refine ⟨?_, j, hj⟩
    rintro rfl
    exact hji (hT.index_unique hj (hT.target_of_holds h ⟨j, hj⟩))
  · rintro ⟨hk, j, hj⟩
    have hji : j ≠ i := by
      rintro rfl
      exact hT.target_ne_live h hk hj
    exact ⟨j, by rw [Function.update_of_ne hji, hj]⟩

end Update

section Scan

/-- What the loop knows when it comes to the `n`-th probe. -/
structure ScanInv (pos : K → ℕ → ι) (T : ι → Slot K V) (k : K) (n : ℕ) (free : Option ι) :
    Prop where
  passes : Passes pos T k n
  no_tomb : free = none → ∀ m < n, T (pos k m) ≠ .tomb
  first_tomb : ∀ i, free = some i →
    ∃ m < n, pos k m = i ∧ T (pos k m) = .tomb ∧ ∀ l < m, T (pos k l) ≠ .tomb

theorem scanInv_zero : ScanInv pos T k 0 none where
  passes := fun m hm => absurd hm (Nat.not_lt_zero m)
  no_tomb := fun _ m hm => absurd hm (Nat.not_lt_zero m)
  first_tomb := fun i hi => by cases hi

theorem ScanInv.succ {free : Option ι} (h : ScanInv pos T k n free)
    (he : T (pos k n) ≠ .empty) (hk : ∀ v, T (pos k n) ≠ .live k v) (ht : T (pos k n) ≠ .tomb) :
    ScanInv pos T k (n + 1) free where
  passes := fun m hm => by
    rcases Nat.lt_succ_iff_lt_or_eq.mp hm with hlt | rfl
    · exact h.passes m hlt
    · exact ⟨he, hk⟩
  no_tomb := fun hf m hm => by
    rcases Nat.lt_succ_iff_lt_or_eq.mp hm with hlt | rfl
    · exact h.no_tomb hf m hlt
    · exact ht
  first_tomb := fun i hi => by
    obtain ⟨m, hm, hrest⟩ := h.first_tomb i hi
    exact ⟨m, by omega, hrest⟩

theorem ScanInv.succ_tomb {free : Option ι} (h : ScanInv pos T k n free)
    (ht : T (pos k n) = .tomb) : ScanInv pos T k (n + 1) (free.or (some (pos k n))) where
  passes := fun m hm => by
    rcases Nat.lt_succ_iff_lt_or_eq.mp hm with hlt | rfl
    · exact h.passes m hlt
    · rw [ht]
      exact ⟨by simp, by simp⟩
  no_tomb := fun hf => by cases free <;> simp at hf
  first_tomb := fun i hi => by
    cases free with
    | none =>
      simp only [Option.none_or, Option.some.injEq] at hi
      subst hi
      exact ⟨n, by omega, rfl, ht, h.no_tomb rfl⟩
    | some j =>
      simp only [Option.some_or, Option.some.injEq] at hi
      obtain ⟨m, hm, hrest⟩ := h.first_tomb i (by rw [hi])
      exact ⟨m, by omega, hrest⟩

variable [DecidableEq K]

/-- The probe loop from the `n`-th probe on; `free` is the first tombstone met so far. -/
def scan (pos : K → ℕ → ι) (T : ι → Slot K V) (k : K) : ℕ → ℕ → Option ι → Option ι
  | 0, _, _ => none
  | fuel + 1, n, free =>
    match T (pos k n) with
    | .empty => some (free.getD (pos k n))
    | .tomb => scan pos T k fuel (n + 1) (free.or (some (pos k n)))
    | .live k' _ => if k' = k then some (pos k n) else scan pos T k fuel (n + 1) free

theorem scan_target {free : Option ι} {fuel : ℕ} (hinv : ScanInv pos T k n free)
    (h : scan pos T k fuel n free = some i) : Target pos T k i := by
  induction fuel generalizing n free with
  | zero => cases h
  | succ fuel ih =>
    cases hs : T (pos k n) with
    | empty =>
      simp only [scan, hs, Option.some.injEq] at h
      subst h
      cases hf : free with
      | none => exact .fresh hinv.passes hs (hinv.no_tomb hf)
      | some j =>
        obtain ⟨m, hm, rfl, ht, hno⟩ := hinv.first_tomb j hf
        exact .reuse hinv.passes hs hm ht hno
    | tomb =>
      simp only [scan, hs] at h
      exact ih (hinv.succ_tomb hs) h
    | live k' v =>
      simp only [scan, hs] at h
      by_cases hk : k' = k
      · rw [if_pos hk, Option.some.injEq] at h
        subst h hk
        exact .hit hinv.passes hs
      · rw [if_neg hk] at h
        refine ih (hinv.succ (by simp [hs]) (fun v hv => ?_) (by simp [hs])) h
        rw [hs] at hv
        cases hv
        exact hk rfl

theorem scan_isSome {free : Option ι} {m : ℕ} (fuel : ℕ) (hfuel : m < fuel)
    (hstop : T (pos k (n + m)) = .empty ∨ ∃ v, T (pos k (n + m)) = .live k v) :
    ∃ i, scan pos T k fuel n free = some i := by
  induction fuel generalizing n m free with
  | zero => omega
  | succ fuel ih =>
    have hnext (hne : m ≠ 0) (free : Option ι) : ∃ i, scan pos T k fuel (n + 1) free = some i := by
      have hmn : n + 1 + (m - 1) = n + m := by omega
      exact ih (m := m - 1) (by omega) (by rw [hmn]; exact hstop)
    cases hs : T (pos k n) with
    | empty => exact ⟨free.getD (pos k n), by simp only [scan, hs]⟩
    | tomb =>
      have hne : m ≠ 0 := by
        rintro rfl
        rw [Nat.add_zero, hs] at hstop
        rcases hstop with h | ⟨v, h⟩ <;> cases h
      simpa only [scan, hs] using hnext hne _
    | live k' v =>
      by_cases hk : k' = k
      · exact ⟨pos k n, by simp only [scan, hs, if_pos hk]⟩
      · have hne : m ≠ 0 := by
          rintro rfl
          rw [Nat.add_zero, hs] at hstop
          rcases hstop with h | ⟨v, h⟩
          · cases h
          · cases h
            exact hk rfl
        simpa only [scan, hs, if_neg hk] using hnext hne _

/-- With no empty slot in reach and the key absent, the loop never ends. -/
theorem scan_diverges {free : Option ι} (he : ∀ n, T (pos k n) ≠ .empty)
    (hk : ∀ v, ¬ Holds T k v) (fuel : ℕ) : scan pos T k fuel n free = none := by
  induction fuel generalizing n free with
  | zero => rfl
  | succ fuel ih =>
    cases hs : T (pos k n) with
    | empty => exact absurd hs (he n)
    | tomb => simpa only [scan, hs] using ih
    | live k' v =>
      have hne : k' ≠ k := by
        rintro rfl
        exact hk v ⟨_, hs⟩
      simpa only [scan, hs, if_neg hne] using ih

theorem Target.exists_scan (h : Target pos T k i) :
    ∃ fuel, scan pos T k (fuel + 1) 0 none = some i := by
  obtain ⟨n, hstop⟩ : ∃ n, T (pos k n) = .empty ∨ ∃ v, T (pos k n) = .live k v := by
    cases h with
    | @hit n v hp hv => exact ⟨n, .inr ⟨v, hv⟩⟩
    | @fresh n hp he hno => exact ⟨n, .inl he⟩
    | @reuse n m hp he hm ht hno => exact ⟨n, .inl he⟩
  have hscan : ∃ j, scan pos T k (n + 1) 0 none = some j :=
    scan_isSome (n + 1) (Nat.lt_succ_self n) (by rw [Nat.zero_add]; exact hstop)
  obtain ⟨j, hj⟩ := hscan
  refine ⟨n, hj.trans (congrArg some ?_)⟩
  exact (scan_target scanInv_zero hj).unique h

end Scan

section Clear

/-- The probes for a key that is in the table come to the slot `i` before they come to the key. -/
def PassesOver (pos : K → ℕ → ι) (T : ι → Slot K V) (k : K) (i : ι) : Prop :=
  ∃ j v, T j = .live k v ∧ ∃ m, pos k m = i ∧ ∀ l ≤ m, pos k l ≠ j

theorem Passes.passesOver {m : ℕ} (hp : Passes pos T k n) (hk : T (pos k n) = .live k v)
    (hm : m < n) : PassesOver pos T k (pos k m) := by
  refine ⟨pos k n, v, hk, m, rfl, fun l hl heq => ?_⟩
  refine (hp l (hl.trans_lt hm)).2 v ?_
  rw [heq, hk]

/-- A key that is found at `i`, or could be stored there, has no tombstone on its way. -/
theorem Target.no_tomb (h : Target pos T k i) (hover : ¬ PassesOver pos T k j) (hj : T j = .tomb)
    {m : ℕ} (hm : pos k m = j) : ∃ l ≤ m, pos k l = i := by
  cases h with
  | @hit n v hp hv =>
    refine ⟨n, ?_, rfl⟩
    by_contra hlt
    exact hover (hm ▸ hp.passesOver hv (not_le.mp hlt))
  | @fresh n hp he hno =>
    refine ⟨n, ?_, rfl⟩
    by_contra hlt
    exact hno m (not_le.mp hlt) (hm ▸ hj)
  | @reuse n m' hp he hm' ht hno =>
    refine ⟨m', ?_, rfl⟩
    by_contra hlt
    exact hno m (not_le.mp hlt) (hm ▸ hj)

variable [DecidableEq ι]

theorem Reachable.clear (hT : Reachable pos T) (hover : ∀ k, ¬ PassesOver pos T k i) :
    Reachable pos (Function.update T i .empty) := by
  intro j k v hj
  have hji : j ≠ i := by
    rintro rfl
    rw [Function.update_self] at hj
    cases hj
  rw [Function.update_of_ne hji] at hj
  obtain ⟨n, rfl, hp⟩ := hT j k v hj
  refine ⟨n, rfl, fun m hm => ?_⟩
  have hmi : pos k m ≠ i := by
    rintro rfl
    exact hover k (hp.passesOver hj hm)
  rw [Function.update_of_ne hmi]
  exact hp m hm

theorem holds_clear (hi : ∀ k v, T i ≠ .live k v) :
    Holds (Function.update T i .empty) k v ↔ Holds T k v := by
  constructor
  · rintro ⟨j, hj⟩
    have hji : j ≠ i := by
      rintro rfl
      rw [Function.update_self] at hj
      cases hj
    rw [Function.update_of_ne hji] at hj
    exact ⟨j, hj⟩
  · rintro ⟨j, hj⟩
    have hji : j ≠ i := by
      rintro rfl
      exact hi k v hj
    exact ⟨j, by rw [Function.update_of_ne hji, hj]⟩

theorem Target.clear (h : Target pos T k j) (hi : T i = .tomb) (hover : ¬ PassesOver pos T k i) :
    Target pos (Function.update T i .empty) k j := by
  have hsame {l : ℕ} (hl : pos k l ≠ i) :
      Function.update T i .empty (pos k l) = T (pos k l) := Function.update_of_ne hl ..
  have hpass {n : ℕ} (hp : Passes pos T k n) (hne : ∀ l < n, pos k l ≠ i) :
      Passes pos (Function.update T i .empty) k n := by
    intro l hl
    rw [hsame (hne l hl)]
    exact hp l hl
  have hother {l : ℕ} (hl : T (pos k l) ≠ .tomb) : pos k l ≠ i := by
    rintro rfl
    exact hl hi
  have hkept {n : ℕ} (hno : ∀ l < n, T (pos k l) ≠ .tomb) :
      ∀ l < n, Function.update T i .empty (pos k l) ≠ .tomb := by
    intro l hl
    rw [hsame (hother (hno l hl))]
    exact hno l hl
  cases h with
  | @hit n v hp hv =>
    have hne : ∀ l < n, pos k l ≠ i := by
      rintro l hl rfl
      exact hover (hp.passesOver hv hl)
    exact .hit (hpass hp hne) ((hsame (hother (by simp [hv]))).trans hv)
  | @fresh n hp he hno =>
    exact .fresh (hpass hp fun l hl => hother (hno l hl))
      ((hsame (hother (by simp [he]))).trans he) (hkept hno)
  | @reuse n m hp he hm ht hno =>
    by_cases hmi : pos k m = i
    · refine .fresh (hpass (hp.mono hm.le) fun l hl => hother (hno l hl)) ?_ (hkept hno)
      rw [hmi, Function.update_self]
    · have hmt := (hsame hmi).trans ht
      -- the probes end at the emptied slot where they come to it before `n`
      by_cases hmeet : ∃ l < n, pos k l = i
      · obtain ⟨l, hl, hli, hfirst⟩ : ∃ l < n, pos k l = i ∧ ∀ l' < l, pos k l' ≠ i := by
          classical
          refine ⟨Nat.find hmeet, (Nat.find_spec hmeet).1, (Nat.find_spec hmeet).2, ?_⟩
          intro l' hl' heq
          exact Nat.find_min hmeet hl' ⟨hl'.trans (Nat.find_spec hmeet).1, heq⟩
        have hml : m < l := by
          by_contra hle
          rcases (not_lt.mp hle).eq_or_lt with rfl | hlt
          · exact hmi hli
          · exact hother (hno l hlt) hli
        refine .reuse (hpass (hp.mono hl.le) hfirst) ?_ hml hmt (hkept hno)
        rw [hli, Function.update_self]
      · exact .reuse (hpass hp fun l hl heq => hmeet ⟨l, hl, heq⟩)
          ((hsame (hother (by simp [he]))).trans he) hm hmt (hkept hno)

theorem PassesOver.cut_off (hT : Reachable pos T) (hover : PassesOver pos T k i)
    (h : Target pos (Function.update T i .empty) k j) : T j ≠ .live k v := by
  intro hj
  obtain ⟨l, w, hl, m, hm, hfirst⟩ := hover
  obtain ⟨n, hn, hp, -⟩ := h.first_probe
  have hmn : m < n := by
    by_contra hle
    exact hfirst n (not_lt.mp hle) (hn.trans (hT.index_unique hj hl))
  refine (hp m hmn).1 ?_
  rw [hm, Function.update_self]

/-- A key stored at its target does not pass over a tombstone that is left. -/
theorem PassesOver.of_insert (h : Target pos T k j) (hi : T i = .tomb)
    (hover : ∀ k, ¬ PassesOver pos T k i) :
    ¬ PassesOver pos (Function.update T j (.live k x)) k' i := by
  rintro ⟨l, v, hl, m, hm, hfirst⟩
  by_cases hlj : l = j
  · rw [hlj, Function.update_self] at hl
    cases hl
    obtain ⟨l', hle, hl'⟩ := h.no_tomb (hover k) hi hm
    exact hfirst l' hle (hl'.trans hlj.symm)
  · rw [Function.update_of_ne hlj] at hl
    exact hover k' ⟨l, v, hl, m, hm, hfirst⟩

theorem PassesOver.of_bury (hover : ¬ PassesOver pos T k i) :
    ¬ PassesOver pos (Function.update T j .tomb) k i := by
  rintro ⟨l, v, hl, hpass⟩
  have hlj : l ≠ j := by
    rintro rfl
    rw [Function.update_self] at hl
    cases hl
  rw [Function.update_of_ne hlj] at hl
  exact hover ⟨l, v, hl, hpass⟩

end Clear

end OpenAddressing
