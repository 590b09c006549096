import JailFs.DictEntries
import JailFs.DictFilled
import JailFs.DictCounters

/-!
# The ranks of `dict_enumerate`

A rank is an `int`, and the loop of `dict_enumerate` reads a slot before it compares the rank with
the size. Behind the last live slot it therefore reads the memory after the table. What it finds
there makes no difference, so that the keys still come out once each, as long as the size of the
table is itself an `int`.
-/

namespace JailFs

open Stdio

/-- What the pointers that `dict_enumerate` gets point to. -/
structure Cursor where
  key : KeyPtr
  val : Option CString
  ts : ℤ
  deriving DecidableEq

def Keypair.cursor (kp : Keypair) : Cursor := ⟨kp.key, kp.val, kp.ts⟩

/-- `d->table[rank]`, where `past` is what lies right behind the table. -/
def Dict.slotAt (d : Dict) (past : Keypair) (rank : ℤ) : Option Keypair :=
  if rank < 0 then none else if rank = d.table.length then some past else d.table[rank.toNat]?

/-- The `while` loop of `dict_enumerate`: the ranks at which it reads a slot, and where it stops.
For the comparison with the size a rank becomes `unsigned`. -/
def dictEnumerateLoop (d : Dict) (past : Keypair) : ℕ → ℤ → List ℤ × Option ℤ
  | 0, _ => ([], none)
  | fuel + 1, rank =>
    match d.slotAt past rank with
    | none => ([rank], none)
    | some kp =>
      if kp.vacant ∧ UInt32.ofInt rank < d.size then
        let rest := dictEnumerateLoop d past fuel (wrapInt (rank + 1))
        (rank :: rest.1, rest.2)
      else ([rank], some rank)

/-- `dict_enumerate`: the ranks at which it reads a slot, its answer, and what the pointers point to
then. At the end the source clears its own copy of the pointer `ts`. -/
def dictEnumerate (d : Dict) (past : Keypair) (fuel : ℕ) (rank : ℤ) (cur : Cursor) :
    List ℤ × Option (ℤ × Cursor) :=
  if rank < 0 then ([], some (-1, cur))
  else
    let loop := dictEnumerateLoop d past fuel rank
    (loop.1, loop.2.bind fun rank =>
      if d.size ≤ UInt32.ofInt rank then some (-1, ⟨.null, none, cur.ts⟩)
      else (d.slotAt past rank).map fun kp => (wrapInt (rank + 1), kp.cursor))

/-- What the calls of `dict_enumerate` yield from `rank` on, each with the rank that the one before
it returned, until one returns `-1`. -/
def enumerateAll (d : Dict) (past : Keypair) : ℕ → ℤ → Cursor → Option (List Cursor)
  | 0, _, _ => none
  | fuel + 1, rank, cur =>
    match (dictEnumerate d past fuel rank cur).2 with
    | none => none
    | some (next, cur) =>
      if next = -1 then some [] else (enumerateAll d past fuel next cur).map (cur :: ·)

/-- The loop of `dict_dump`. It counts no more errors than the table has slots. -/
def dictDumpLoop (d : Dict) (past : Keypair) (ok : ℕ → Bool) :
    ℕ → ℤ → Cursor → Stream → ℤ → Option (Stream × ℤ)
  | 0, _, _, _, _ => none
  | fuel + 1, rank, cur, out, errors =>
    match (dictEnumerate d past fuel rank cur).2 with
    | none => none
    | some (next, cur) =>
      if next < 0 then some (out, errors)
      else
        match cur.key with
        | .live key =>
          let r := fprintf ok out (entryLine key cur.val)
          dictDumpLoop d past ok fuel next cur r.1 (if r.2 < 0 then errors + 1 else errors)
        | _ => none

/-- `dict_dump`; its own `key` and `val` start out as anything. -/
def dictDump (d : Dict) (past : Keypair) (ok : ℕ → Bool) (fuel : ℕ) (cur : Cursor) (out : Stream) :
    Option (Stream × ℤ) :=
  dictDumpLoop d past ok fuel 0 { cur with ts := 0 } out 0

def Dict.dumpFuel (d : Dict) : ℕ := 2 * d.table.length + 2

/-- The timestamps of a dictionary, read as `toMap` reads its values. -/
def Dict.stamps (d : Dict) (key : CString) : Option ℤ :=
  (d.table.find? fun kp => kp.holds key).map Keypair.ts

/-- From rank 0 on the calls come to an end, and yield every present key once, with its value and
its timestamp, and nothing else. -/
def Dict.Enumerates (d : Dict) (past : Keypair) (cur : Cursor) : Prop :=
  ∃ yielded, Fuel.Returns (fun fuel => enumerateAll d past fuel 0 cur) yielded ∧
    (yielded.map Cursor.key).Nodup ∧
    ∀ c, c ∈ yielded ↔ ∃ key, c.key = .live key ∧ d.toMap key = some c.val ∧
      d.stamps key = some c.ts

/-- `dict_dump` prints one line for every present key. -/
def Dict.Dumps (d : Dict) (past : Keypair) (cur : Cursor) : Prop :=
  ∃ bindings : List (CString × Option CString), (bindings.map Prod.fst).Nodup ∧
    (∀ key val, (key, val) ∈ bindings ↔ d.toMap key = some val) ∧
    ∀ ok out, Fuel.Returns (fun fuel => dictDump d past ok fuel cur out)
      (fprintfAll ok out (bindings.map fun b => entryLine b.1 b.2))

/-- What walking through a dictionary should do, whatever lies behind the table. -/
def Dict.EnumerateContract (d : Dict) : Prop :=
  ∀ past cur, d.Enumerates past cur ∧ d.Dumps past cur

/-- `rank` is 0, or `dict_enumerate` has returned it, now or earlier in the history `ops`. -/
def Dict.RankOf (ops : List DictOp) (d : Dict) (rank : ℤ) : Prop :=
  rank = 0 ∨ ∃ pre post d₀, ops = pre ++ post ∧ Dict.Run pre d₀ ∧ Exec DictOp.Step d₀ post d ∧
    ∃ past fuel rank₀ cur cur', (dictEnumerate d₀ past fuel rank₀ cur).2 = some (rank, cur')

/-- Every slot that `dict_enumerate` reads is one of the table. -/
def Dict.ReadsInside (d : Dict) (past : Keypair) (rank : ℤ) : Prop :=
  ∀ fuel cur, ∀ i ∈ (dictEnumerate d past fuel rank cur).1, 0 ≤ i ∧ i < d.size.toNat

namespace Dict

variable {d d' : Dict} {past : Keypair} {cur : Cursor} {fuel n : ℕ} {rank next : ℤ}

section Scan

/-- The rank at which the loop of `dict_enumerate` stops. -/
def skipVacant (d : Dict) (rank : ℕ) : ℕ :=
  rank + ((d.table.drop rank).takeWhile Keypair.vacant).length

theorem slotAt_lt {kp : Keypair} (h : d.table[n]? = some kp) : d.slotAt past n = some kp := by
  have hlt := (List.getElem?_eq_some_iff.mp h).1
  rw [slotAt, if_neg (by omega), if_neg (by omega), Int.toNat_natCast, h]

theorem slotAt_length (d : Dict) (past : Keypair) : d.slotAt past d.table.length = some past := by
  rw [slotAt, if_neg (by omega), if_pos rfl]

theorem slotAt_neg (h : rank < 0) : d.slotAt past rank = none := if_pos h

theorem toNat_ofInt (h : n < 2 ^ 32) : (UInt32.ofInt n).toNat = n := by
  have hmod : ((n : ℤ) % 2 ^ 32).toNat = n := by omega
  rw [UInt32.ofInt, hmod]
  exact UInt32.toNat_ofNat_of_lt' h

theorem WF.rank_lt_iff (h : d.WF) (hn : n ≤ d.table.length) :
    UInt32.ofInt n < d.size ↔ n < d.table.length := by
  have hle := h.size.le
  have hlen := h.length
  rw [UInt32.lt_iff_toNat_lt, toNat_ofInt (by omega), hlen]

theorem skipVacant_of_vacant {kp : Keypair} (h : d.table[n]? = some kp) (hv : kp.vacant = true) :
    d.skipVacant n = d.skipVacant (n + 1) := by
  obtain ⟨hlt, rfl⟩ := List.getElem?_eq_some_iff.mp h
  rw [skipVacant, List.drop_eq_getElem_cons hlt, List.takeWhile_cons_of_pos hv, List.length_cons,
    skipVacant]
  omega

theorem skipVacant_of_not {kp : Keypair} (h : d.table[n]? = some kp) (hv : kp.vacant = false) :
    d.skipVacant n = n := by
  obtain ⟨hlt, rfl⟩ := List.getElem?_eq_some_iff.mp h
  rw [skipVacant, List.drop_eq_getElem_cons hlt, List.takeWhile_cons_of_neg (by rw [hv]; simp)]
  rfl

theorem skipVacant_length (d : Dict) : d.skipVacant d.table.length = d.table.length := by
  rw [skipVacant, List.drop_length]
  rfl

/-- A rank up to the size is at the end, at a slot to pass over, or at a live slot. -/
theorem rank_cases (hn : n ≤ d.table.length) : n = d.table.length ∨
    ∃ kp, d.table[n]? = some kp ∧ (kp.vacant = true ∧ d.skipVacant n = d.skipVacant (n + 1) ∨
      kp.vacant = false ∧ d.skipVacant n = n) := by
  rcases hn.eq_or_lt with heq | hlt
  · exact .inl heq
  · have hs : d.table[n]? = some d.table[n] := List.getElem?_eq_getElem hlt
    refine .inr ⟨_, hs, ?_⟩
    cases hv : d.table[n].vacant with
    | true => exact .inl ⟨rfl, skipVacant_of_vacant hs hv⟩
    | false => exact .inr ⟨rfl, skipVacant_of_not hs hv⟩

theorem WF.loop_vacant (h : d.WF) {kp : Keypair} (hs : d.table[n]? = some kp)
    (hv : kp.vacant = true) : dictEnumerateLoop d past (fuel + 1) n =
      ((n : ℤ) :: (dictEnumerateLoop d past fuel (wrapInt (n + 1))).1,
        (dictEnumerateLoop d past fuel (wrapInt (n + 1))).2) := by
  have hlt := (List.getElem?_eq_some_iff.mp hs).1
  rw [dictEnumerateLoop, slotAt_lt hs]
  exact if_pos ⟨hv, (h.rank_lt_iff hlt.le).mpr hlt⟩

theorem loop_live {kp : Keypair} (hs : d.table[n]? = some kp) (hv : kp.vacant = false) :
    dictEnumerateLoop d past (fuel + 1) n = ([(n : ℤ)], some (n : ℤ)) := by
  rw [dictEnumerateLoop, slotAt_lt hs]
  exact if_neg fun hboth => by
    rw [hv] at hboth
    exact Bool.false_ne_true hboth.1

theorem WF.loop_end (h : d.WF) : dictEnumerateLoop d past (fuel + 1) d.table.length =
    ([(d.table.length : ℤ)], some (d.table.length : ℤ)) := by
  rw [dictEnumerateLoop, slotAt_length]
  exact if_neg fun hboth => lt_irrefl _ ((h.rank_lt_iff le_rfl).mp hboth.2)

theorem loop_neg (hneg : rank < 0) : (dictEnumerateLoop d past fuel rank).2 = none ∧
    (0 < fuel → rank ∈ (dictEnumerateLoop d past fuel rank).1) := by
  cases fuel with
  | zero => exact ⟨rfl, fun hpos => absurd hpos (lt_irrefl 0)⟩
  | succ fuel =>
    rw [dictEnumerateLoop, slotAt_neg hneg]
    exact ⟨rfl, fun _ => List.mem_singleton_self rank⟩

theorem wrapInt_succ (hn : n < 2 ^ 31) :
    n + 1 < 2 ^ 31 ∧ wrapInt (n + 1) = (n + 1 : ℕ) ∨
      n + 1 = 2 ^ 31 ∧ wrapInt (n + 1) = -2 ^ 31 := by
  by_cases hlt : n + 1 < 2 ^ 31
  · left
    refine ⟨hlt, ?_⟩
    rw [wrapInt_of_lt (by omega) (by omega)]
    omega
  · right
    have hn : n = 2 ^ 31 - 1 := by omega
    refine ⟨by omega, ?_⟩
    rw [hn]
    rfl

/-- One turn of the loop: it stops at the rank, or passes over its slot and goes on with the rank
after it, if that is an `int`. -/
theorem WF.loop_cases (h : d.WF) (past : Keypair) (fuel : ℕ) (hn : n ≤ d.table.length)
    (hlt : n < 2 ^ 31) :
    d.skipVacant n = n ∧ dictEnumerateLoop d past (fuel + 1) n = ([(n : ℤ)], some (n : ℤ)) ∨
      n < d.table.length ∧ d.skipVacant n = d.skipVacant (n + 1) ∧ ∃ next,
        dictEnumerateLoop d past (fuel + 1) n = ((n : ℤ) :: (dictEnumerateLoop d past fuel next).1,
          (dictEnumerateLoop d past fuel next).2) ∧
        (n + 1 < 2 ^ 31 ∧ next = (n + 1 : ℕ) ∨ n + 1 = 2 ^ 31 ∧ next = -2 ^ 31) := by
  rcases rank_cases hn with rfl | ⟨kp, hs, ⟨hv, hskip⟩ | ⟨hv, hskip⟩⟩
  · exact .inl ⟨d.skipVacant_length, h.loop_end⟩
  · exact .inr ⟨(List.getElem?_eq_some_iff.mp hs).1, hskip, _, h.loop_vacant hs hv,
      wrapInt_succ hlt⟩
  · exact .inl ⟨hskip, loop_live hs hv⟩

theorem WF.loop_some (h : d.WF) (hn : n ≤ d.table.length) (hlt : n < 2 ^ 31)
    (hr : (dictEnumerateLoop d past fuel n).2 = some next) :
    next = d.skipVacant n ∧ d.skipVacant n < 2 ^ 31 := by
  induction fuel generalizing n with
  | zero => cases hr
  | succ fuel ih =>
    rcases h.loop_cases past fuel hn hlt with ⟨hskip, heq⟩ |
      ⟨hin, hskip, m, heq, ⟨hlt', rfl⟩ | ⟨-, rfl⟩⟩
    · rw [heq] at hr
      rw [hskip]
      exact ⟨(Option.some.inj hr).symm, hlt⟩
    · rw [heq] at hr
      rw [hskip]
      exact ih hin hlt' hr
    · rw [heq, (loop_neg (by omega)).1] at hr
      cases hr

/-- The loop stops, as long as it comes to a live slot or to the end before the rank wraps. -/
theorem WF.loop_returns (h : d.WF) (past : Keypair) (hn : n ≤ d.table.length)
    (hlt : d.skipVacant n < 2 ^ 31) (hfuel : d.table.length - n < fuel) :
    (dictEnumerateLoop d past fuel n).2 = some (d.skipVacant n : ℤ) := by
  induction fuel generalizing n with
  | zero => omega
  | succ fuel ih =>
    have hle : n ≤ d.skipVacant n := Nat.le_add_right ..
    rcases h.loop_cases past fuel hn (by omega) with ⟨hskip, heq⟩ |
      ⟨hin, hskip, m, heq, ⟨-, rfl⟩ | ⟨hmax, -⟩⟩
    · rw [heq, hskip]
    · rw [heq, hskip]
      exact ih hin (by omega) (by omega)
    · have hle' : n + 1 ≤ d.skipVacant (n + 1) := Nat.le_add_right ..
      omega

theorem WF.loop_inside (h : d.WF) (hn : n ≤ d.table.length) (hlt : n < 2 ^ 31)
    (hlive : d.skipVacant n < d.table.length) {i : ℤ}
    (hi : i ∈ (dictEnumerateLoop d past fuel n).1) : 0 ≤ i ∧ i < d.table.length := by
  induction fuel generalizing n with
  | zero => cases hi
  | succ fuel ih =>
    rcases h.loop_cases past fuel hn hlt with ⟨hskip, heq⟩ |
      ⟨hin, hskip, m, heq, ⟨hlt', rfl⟩ | ⟨hmax, -⟩⟩
    · rw [heq] at hi
      rw [List.mem_singleton.mp hi]
      omega
    · rw [heq] at hi
      rcases List.mem_cons.mp hi with rfl | hi
      · omega
      · exact ih hin hlt' (hskip ▸ hlive) hi
    · have hle : n + 1 ≤ d.skipVacant (n + 1) := Nat.le_add_right ..
      have hsize := h.size.le
      have hlen := h.length
      omega

/-- Without a live slot ahead the loop reads behind the table, or, where the rank wraps around, in
front of it. -/
theorem WF.loop_outside (h : d.WF) (past : Keypair) (hn : n ≤ d.table.length) (hlt : n < 2 ^ 31)
    (hend : d.skipVacant n = d.table.length) (hfuel : d.table.length - n + 1 < fuel) :
    ∃ i ∈ (dictEnumerateLoop d past fuel n).1, ¬ (0 ≤ i ∧ i < d.table.length) := by
  induction fuel generalizing n with
  | zero => omega
  | succ fuel ih =>
    rcases h.loop_cases past fuel hn hlt with ⟨hskip, heq⟩ |
      ⟨hin, hskip, m, heq, ⟨hlt', rfl⟩ | ⟨-, rfl⟩⟩
    · rw [heq]
      exact ⟨n, List.mem_cons_self, by omega⟩
    · rw [heq]
      obtain ⟨i, hi, hout⟩ := ih hin hlt' (hskip ▸ hend) (by omega)
      exact ⟨i, List.mem_cons_of_mem _ hi, hout⟩
    · rw [heq]
      exact ⟨-2 ^ 31, List.mem_cons_of_mem _ ((loop_neg (by omega)).2 (by omega)), by omega⟩

end Scan

section Live

/-- The slots from `n` on that `dict_enumerate` does not pass over. -/
def liveFrom (d : Dict) (n : ℕ) : List Keypair := (d.table.drop n).filter fun kp => !kp.vacant

theorem liveFrom_of_getElem? {kp : Keypair} (hs : d.table[n]? = some kp) :
    d.liveFrom n = if kp.vacant then d.liveFrom (n + 1) else kp :: d.liveFrom (n + 1) := by
  obtain ⟨hlt, rfl⟩ := List.getElem?_eq_some_iff.mp hs
  rw [liveFrom, List.drop_eq_getElem_cons hlt, List.filter_cons]
  cases d.table[n].vacant <;> rfl

theorem skip_cases (hn : n ≤ d.table.length) :
    d.skipVacant n = d.table.length ∧ d.liveFrom n = [] ∨
      ∃ kp, d.table[d.skipVacant n]? = some kp ∧ kp.vacant = false ∧
        d.liveFrom n = kp :: d.liveFrom (d.skipVacant n + 1) := by
  induction hk : d.table.length - n generalizing n with
  | zero =>
    left
    have heq : n = d.table.length := by omega
    rw [heq, skipVacant_length, liveFrom, List.drop_length]
    exact ⟨rfl, rfl⟩
  | succ k ih =>
    rcases rank_cases hn with heq | ⟨kp, hs, ⟨hv, hskip⟩ | ⟨hv, hskip⟩⟩
    · omega
    · have hin := (List.getElem?_eq_some_iff.mp hs).1
      rw [hskip, liveFrom_of_getElem? hs, if_pos hv]
      exact ih hin (by omega)
    · right
      rw [hskip]
      refine ⟨kp, hs, hv, ?_⟩
      rw [liveFrom_of_getElem? hs, hv]
      rfl

/-- There is a live slot at `rank` or behind it. -/
def LiveAhead (d : Dict) (rank : ℤ) : Prop :=
  ∃ i : ℕ, rank ≤ i ∧ ∃ kp, d.table[i]? = some kp ∧ kp.vacant = false

theorem liveAhead_iff (hn : n ≤ d.table.length) :
    d.LiveAhead n ↔ d.skipVacant n < d.table.length := by
  have hle : n ≤ d.skipVacant n := Nat.le_add_right ..
  rcases skip_cases hn with ⟨hend, hnil⟩ | ⟨kp, hs, hv, -⟩
  · refine iff_of_false ?_ (by omega)
    rintro ⟨i, hi, kp, hs, hv⟩
    have hmem : kp ∈ d.liveFrom n := by
      obtain ⟨hlt, rfl⟩ := List.getElem?_eq_some_iff.mp hs
      rw [liveFrom, List.mem_filter]
      refine ⟨List.mem_drop_iff_getElem.mpr ⟨i - n, by omega, ?_⟩, by rw [hv]; rfl⟩
      congr 1
      omega
    rw [hnil] at hmem
    cases hmem
  · exact iff_of_true ⟨_, by omega, kp, hs, hv⟩ (List.getElem?_eq_some_iff.mp hs).1

end Live

section Ranks

variable {ops : List DictOp}

/-- No answer of `dict_enumerate` lies beyond the table or beyond the range of `int`. -/
theorem WF.enumerate_le (h : d.WF) {cur' : Cursor}
    (hr : (dictEnumerate d past fuel rank cur).2 = some (next, cur')) :
    next ≤ d.table.length ∧ next < 2 ^ 31 := by
  have hint (m : ℤ) : wrapInt m < 2 ^ 31 := Int.bmod_lt (by omega)
  rw [dictEnumerate] at hr
  split_ifs at hr with hneg
  · cases hr
    omega
  · obtain ⟨rank', -, hanswer⟩ := Option.bind_eq_some_iff.mp hr
    split_ifs at hanswer with hend
    · cases hanswer
      omega
    · obtain ⟨kp, hs, hpair⟩ := Option.map_eq_some_iff.mp hanswer
      obtain ⟨rfl, -⟩ := Prod.mk.injEq .. ▸ hpair
      rw [UInt32.not_le] at hend
      rw [slotAt] at hs
      split_ifs at hs with hneg' hlen
      · rw [hlen] at hend
        exact absurd ((h.rank_lt_iff le_rfl).mp hend) (lt_irrefl _)
      · have hlt := (List.getElem?_eq_some_iff.mp hs).1
        have hsize := h.size.le
        have hlen := h.length
        refine ⟨?_, hint _⟩
        by_cases hmax : rank' + 1 < 2 ^ 31
        · rw [wrapInt_of_lt (by omega) hmax]
          omega
        · have hone := hint (rank' + 1)
          omega

theorem rehash_invariant {add : Dict → CString → Option CString → ℤ → Option (Dict × ℤ)}
    {I : Dict → Prop} (hadd : ∀ d key val ts d' rc, I d → add d key val ts = some (d', rc) → I d')
    {table : List Keypair} (hI : I d) (hr : rehash add table d = some d') : I d' := by
  induction table generalizing d with
  | nil =>
    cases hr
    exact hI
  | cons kp table ih =>
    rw [rehash] at hr
    cases hk : kp.key with
    | null => exact ih hI (by simpa only [hk] using hr)
    | dummy => exact ih hI (by simpa only [hk] using hr)
    | freed =>
      simp only [hk] at hr
      cases hr
    | live s =>
      simp only [hk] at hr
      cases ha : add d s kp.val kp.ts with
      | none => simp [ha] at hr
      | some r =>
        simp only [ha] at hr
        exact ih (hadd _ _ _ _ _ _ hI ha) hr

theorem WF.addP_size_le (h : d.WF) {env : DictEnv} (henv : env.NoFail) {key : CString}
    {val : Option CString} {blob : Option Addr} {ts rc : ℤ} {copy : Bool}
    (ha : d.addP env fuel (some key) val blob ts copy = some (d', rc)) :
    d.size.toNat ≤ d'.size.toNat := by
  induction fuel generalizing d d' key val blob ts copy rc with
  | zero => cases ha
  | succ fuel ih =>
    obtain ⟨d₁, hwf₁, hload, -, ⟨-, rfl⟩ | ⟨-, rc', hr⟩⟩ := h.addP_inv henv ha
    · exact (congrArg (fun l : Load => l.size.toNat) hload).ge
    · have hsize : d₁.size = d.size := congrArg Load.size hload
      rw [resize] at hr
      cases hg : growLoop (d₁.resizeFactor * d₁.used) fuel d₁.size with
      | none => simp [hg] at hr
      | some newsize =>
        simp only [hg, henv.calloc, if_true] at hr
        split_ifs at hr
        · cases hr
          rw [hsize]
        · obtain ⟨d₂, hd₂, hpair⟩ := Option.map_eq_some_iff.mp hr
          cases hpair
          have hge := growLoop_ge hwf₁.size hg
          rw [hsize] at hge
          have hkept : d'.WF ∧ newsize.toNat ≤ d'.size.toNat :=
            rehash_invariant (I := fun d => d.WF ∧ newsize.toNat ≤ d.size.toNat)
              (fun d key val ts d' rc hI ha =>
                ⟨(addP_spec henv hI.1 ha).2.1, hI.2.trans (ih hI.1 ha)⟩)
              ⟨wf_zero (growLoop_isTableSize hwf₁.size hg), le_rfl⟩ hd₂
          exact hge.trans hkept.2

theorem WF.step_size_le (h : d.WF) {op : DictOp} (hstep : op.Step d d') :
    d.size.toNat ≤ d'.size.toNat := by
  obtain ⟨env, fuel, henv, happly⟩ := hstep
  cases op with
  | add key val =>
    obtain ⟨⟨d₁, rc⟩, ha, rfl⟩ := Option.map_eq_some_iff.mp happly
    exact h.addP_size_le henv ha
  | addTs key val ts =>
    obtain ⟨⟨d₁, rc⟩, ha, rfl⟩ := Option.map_eq_some_iff.mp happly
    exact h.addP_size_le henv ha
  | get key defval =>
    obtain ⟨r, -, rfl⟩ := Option.map_eq_some_iff.mp happly
    exact le_rfl
  | del key =>
    obtain ⟨⟨d₁, rc⟩, hd, rfl⟩ := Option.map_eq_some_iff.mp happly
    obtain ⟨i, slot, -, -, -, rfl⟩ := h.del_cases hd
    exact le_rfl

theorem RankOf.le (hrank : RankOf ops d rank) :
    rank ≤ d.size.toNat ∧ rank < 2 ^ 31 := by
  rcases hrank with rfl | ⟨pre, post, d₀, -, hrun, hlater, past, fuel, rank₀, cur, cur', hr⟩
  · omega
  · have hwf := (run_wf_and_map hrun).1
    obtain ⟨hle, hlt⟩ := hwf.enumerate_le hr
    have hgrown : d.WF ∧ d₀.size.toNat ≤ d.size.toNat :=
      hlater.invariant (I := fun d => d.WF ∧ d₀.size.toNat ≤ d.size.toNat) ⟨hwf, le_rfl⟩
        fun _ _ _ hI hstep => ⟨(step_spec hI.1 hstep).1, hI.2.trans (hI.1.step_size_le hstep)⟩
    have hsize := hgrown.2
    rw [hwf.length] at hle
    exact ⟨by omega, hlt⟩

end Ranks

section Yield

theorem WF.enumerate_step (h : d.WF) (cur : Cursor) (hn : n ≤ d.table.length)
    (hloop : (dictEnumerateLoop d past fuel n).2 = some (d.skipVacant n : ℤ)) :
    d.skipVacant n = d.table.length ∧ d.liveFrom n = [] ∧
        (dictEnumerate d past fuel n cur).2 = some (-1, ⟨.null, none, cur.ts⟩) ∨
      ∃ kp m, kp ∈ d.table ∧ kp.vacant = false ∧ d.liveFrom n = kp :: d.liveFrom m ∧
        d.table[m - 1]? = some kp ∧ n < m ∧ m ≤ d.table.length ∧
          (dictEnumerate d past fuel n cur).2 = some (wrapInt m, kp.cursor) := by
  have hle : n ≤ d.skipVacant n := Nat.le_add_right ..
  rw [dictEnumerate, if_neg (by omega)]
  simp only [hloop, Option.bind_some]
  rcases skip_cases hn with ⟨hend, hnil⟩ | ⟨kp, hs, hv, hcons⟩
  · left
    refine ⟨hend, hnil, if_pos ?_⟩
    rw [hend, ← UInt32.not_lt, h.rank_lt_iff le_rfl]
    exact lt_irrefl _
  · right
    have hlt := (List.getElem?_eq_some_iff.mp hs).1
    refine ⟨kp, d.skipVacant n + 1, List.mem_of_getElem? hs, hv, hcons, hs, by omega, hlt, ?_⟩
    rw [if_neg (UInt32.not_le.mpr ((h.rank_lt_iff hlt.le).mpr hlt)), slotAt_lt hs]
    rfl

theorem WF.enumerate_returns (h : d.WF) (past : Keypair) (cur : Cursor)
    (hsize : d.size.toNat < 2 ^ 31) (hn : n ≤ d.table.length) (hfuel : d.table.length < fuel) :
    d.liveFrom n = [] ∧ (dictEnumerate d past fuel n cur).2 = some (-1, ⟨.null, none, cur.ts⟩) ∨
      ∃ kp m, kp ∈ d.table ∧ kp.vacant = false ∧ d.liveFrom n = kp :: d.liveFrom m ∧
        m ≤ d.table.length ∧ (dictEnumerate d past fuel n cur).2 = some ((m : ℤ), kp.cursor) := by
  have hlen := h.length
  have hskip : d.skipVacant n ≤ d.table.length := by
    rcases skip_cases hn with ⟨hend, -⟩ | ⟨kp, hs, -⟩
    · exact hend.le
    · exact (List.getElem?_eq_some_iff.mp hs).1.le
  rcases h.enumerate_step cur hn (h.loop_returns past hn (by omega)
    (show d.table.length - n < fuel by omega)) with
      ⟨-, hnil, hanswer⟩ | ⟨kp, m, hmem, hv, hcons, -, -, hm, hanswer⟩
  · exact .inl ⟨hnil, hanswer⟩
  · rw [wrapInt_of_lt (by omega) (by omega)] at hanswer
    exact .inr ⟨kp, m, hmem, hv, hcons, hm, hanswer⟩

theorem WF.enumerateAll_eq (h : d.WF) (hsize : d.size.toNat < 2 ^ 31) (hn : n ≤ d.table.length)
    (hfuel : d.table.length + (d.liveFrom n).length + 1 < fuel) :
    enumerateAll d past fuel n cur = some ((d.liveFrom n).map Keypair.cursor) := by
  induction fuel generalizing n cur with
  | zero => omega
  | succ fuel ih =>
    rw [enumerateAll]
    rcases h.enumerate_returns past cur hsize hn
      (show d.table.length < fuel by omega) with
        ⟨hnil, hanswer⟩ | ⟨kp, m, -, -, hcons, hm, hanswer⟩
    · simp only [hanswer, hnil, if_true, List.map_nil]
    · have hne : ¬ (m : ℤ) = -1 := by omega
      rw [hcons, List.length_cons] at hfuel
      simp only [hanswer, if_neg hne, hcons, List.map_cons]
      rw [ih hm (by omega)]
      rfl

theorem entriesOf_cons {kp : Keypair} {key : CString} (hkey : kp.key = .live key)
    (table : List Keypair) : entriesOf (kp :: table) = (key, kp.val) :: entriesOf table := by
  rw [entriesOf, List.filterMap_cons, hkey]
  rfl

theorem WF.length_entriesOf_liveFrom (h : d.WF) (n : ℕ) :
    (entriesOf (d.liveFrom n)).length = (d.liveFrom n).length := by
  rw [length_entriesOf, liveCount, List.countP_eq_length]
  intro kp hkp
  obtain ⟨hdrop, hv⟩ := List.mem_filter.mp hkp
  obtain ⟨key, hkey⟩ := (h.slots kp (List.mem_of_mem_drop hdrop)).exists_live (by simpa using hv)
  rw [Keypair.isLive, hkey]

theorem length_liveFrom_le (d : Dict) (n : ℕ) : (d.liveFrom n).length ≤ d.table.length := by
  have hle := List.length_filter_le (fun kp : Keypair => !kp.vacant) (d.table.drop n)
  rw [List.length_drop] at hle
  rw [liveFrom]
  omega

theorem WF.dictDumpLoop_eq (h : d.WF) (hsize : d.size.toNat < 2 ^ 31) (hn : n ≤ d.table.length)
    (hfuel : d.table.length + (d.liveFrom n).length + 1 < fuel) {ok : ℕ → Bool} {out : Stream}
    {errors : ℤ} : dictDumpLoop d past ok fuel n cur out errors =
      let r := fprintfAll ok out ((entriesOf (d.liveFrom n)).map fun e => entryLine e.1 e.2)
      some (r.1, errors + r.2) := by
  induction fuel generalizing n cur out errors with
  | zero => omega
  | succ fuel ih =>
    rw [dictDumpLoop]
    rcases h.enumerate_returns past cur hsize hn
      (show d.table.length < fuel by omega) with
        ⟨hnil, hanswer⟩ | ⟨kp, m, hmem, hv, hcons, hm, hanswer⟩
    · simp [hanswer, hnil, entriesOf, fprintfAll]
    · obtain ⟨key, hkey⟩ := (h.slots kp hmem).exists_live hv
      have hpos : ¬ (m : ℤ) < 0 := by omega
      rw [hcons, List.length_cons] at hfuel
      rw [hcons, entriesOf_cons hkey]
      simp only [hanswer, if_neg hpos, Keypair.cursor, hkey]
      rw [ih hm (by omega)]
      simp only [List.map_cons, fprintfAll, Option.some.injEq, Prod.mk.injEq, true_and]
      split_ifs <;> omega

end Yield

section Present

variable {table : List Keypair} {kp : Keypair} {key : CString}

theorem find?_holds (hd : KeysDistinct table) (hmem : kp ∈ table) (hk : kp.holds key) :
    table.find? (fun kp => kp.holds key) = some kp := by
  induction table with
  | nil => cases hmem
  | cons kp' table ih =>
    obtain ⟨hhead, htail⟩ := List.pairwise_cons.mp hd
    rcases List.mem_cons.mp hmem with rfl | hmem
    · exact List.find?_cons_of_pos hk
    · have hskip : ¬ kp'.holds key := fun hk' => hhead kp hmem key hk' hk
      rw [List.find?_cons, Bool.eq_false_iff.mpr hskip]
      exact ih htail hmem

theorem WF.mem_liveFrom_iff (h : d.WF) (c : Cursor) :
    c ∈ (d.liveFrom 0).map Keypair.cursor ↔
      ∃ key, c.key = .live key ∧ d.toMap key = some c.val ∧ d.stamps key = some c.ts := by
  rw [liveFrom, List.drop_zero, List.mem_map]
  constructor
  · rintro ⟨kp, hkp, rfl⟩
    obtain ⟨hmem, hv⟩ := List.mem_filter.mp hkp
    obtain ⟨key, hkey⟩ := (h.slots kp hmem).exists_live (by simpa using hv)
    have hfind := find?_holds h.keysDistinct hmem (Keypair.holds_iff.mpr hkey)
    exact ⟨key, hkey, by rw [toMap, tableMap, hfind]; rfl, by rw [stamps, hfind]; rfl⟩
  · rintro ⟨key, hkey, hval, hts⟩
    rw [toMap, tableMap] at hval
    rw [stamps] at hts
    obtain ⟨kp, hfind, hval⟩ := Option.map_eq_some_iff.mp hval
    rw [hfind] at hts
    have hholds : kp.holds key := List.find?_some (p := fun kp : Keypair => kp.holds key) hfind
    have hlive := Keypair.holds_iff.mp hholds
    refine ⟨kp, List.mem_filter.mpr ⟨List.mem_of_find?_eq_some hfind, ?_⟩, ?_⟩
    · simp [Keypair.vacant, hlive]
    · rw [Keypair.cursor, hlive, hval, Option.some.inj hts, ← hkey]

theorem WF.nodup_liveFrom (h : d.WF) : ((d.liveFrom 0).map Keypair.key).Nodup := by
  rw [liveFrom, List.drop_zero, List.Nodup, List.pairwise_map]
  refine (h.keysDistinct.filter _).imp_of_mem fun {a b} ha _ hab heq => ?_
  obtain ⟨hmem, hv⟩ := List.mem_filter.mp ha
  obtain ⟨key, hkey⟩ := (h.slots a hmem).exists_live (by simpa using hv)
  exact hab key (Keypair.holds_iff.mpr hkey) (Keypair.holds_iff.mpr (heq ▸ hkey))

theorem entriesOf_filter (table : List Keypair) :
    entriesOf (table.filter fun kp => !kp.vacant) = entriesOf table := by
  rw [entriesOf, List.filterMap_filter]
  refine List.filterMap_congr fun kp _ => ?_
  cases hk : kp.key <;> simp [Keypair.vacant, hk]

theorem entriesOf_liveFrom (d : Dict) : entriesOf (d.liveFrom 0) = d.entries := by
  rw [liveFrom, List.drop_zero, entriesOf_filter]
  rfl

theorem map_key_eq (hlive : ∀ kp ∈ table, ∃ key, kp.key = .live key) :
    table.map Keypair.key = ((entriesOf table).map Prod.fst).map KeyPtr.live := by
  induction table with
  | nil => rfl
  | cons kp table ih =>
    obtain ⟨key, hkey⟩ := hlive kp List.mem_cons_self
    rw [entriesOf_cons hkey, List.map_cons, hkey,
      ih fun kp hmem => hlive kp (List.mem_cons_of_mem _ hmem)]
    rfl

theorem WF.nodup_entries (h : d.WF) : (d.entries.map Prod.fst).Nodup := by
  have hkeys := h.nodup_liveFrom
  rw [map_key_eq, liveFrom, List.drop_zero, entriesOf_filter] at hkeys
  · exact hkeys.of_map _
  · intro kp hkp
    rw [liveFrom, List.drop_zero] at hkp
    obtain ⟨hmem, hv⟩ := List.mem_filter.mp hkp
    exact (h.slots kp hmem).exists_live (by simpa using hv)

end Present

theorem WF.enumerateContract (h : d.WF) (hsize : d.size.toNat < 2 ^ 31) :
    d.EnumerateContract := by
  intro past cur
  constructor
  · refine ⟨(d.liveFrom 0).map Keypair.cursor, ⟨_, h.enumerateAll_eq hsize (Nat.zero_le _)
      (Nat.lt_succ_self _)⟩, ?_, h.mem_liveFrom_iff⟩
    rw [List.map_map]
    exact h.nodup_liveFrom
  · refine ⟨d.entries, h.nodup_entries, fun _ _ => h.mem_entries_iff, fun ok out => ?_⟩
    refine ⟨_, (h.dictDumpLoop_eq hsize (Nat.zero_le _) (Nat.lt_succ_self _)).trans ?_⟩
    rw [liveFrom, List.drop_zero, entriesOf_filter]
    simp only [Int.zero_add]
    rfl

section TooLarge

variable {ok : ℕ → Bool} {out s : Stream} {errors e : ℤ}

/-- With `2 ^ 31` slots the rank wraps around behind the last one. A dump comes to an end only if
the last slot is live, and leaves out its line. -/
theorem WF.dictDumpLoop_large (h : d.WF) (hsize : d.size.toNat = 2 ^ 31) (hn : n < 2 ^ 31)
    (hd : dictDumpLoop d past ok fuel n cur out errors = some (s, e)) :
    d.LiveAhead (2 ^ 31 - 1) ∧ d.liveFrom n ≠ [] ∧
      let r := fprintfAll ok out
        ((entriesOf (d.liveFrom n)).dropLast.map fun e => entryLine e.1 e.2)
      s = r.1 ∧ e = errors + r.2 := by
  induction fuel generalizing n cur out errors with
  | zero => cases hd
  | succ fuel ih =>
    have hlen := h.length
    rw [dictDumpLoop] at hd
    cases hr : (dictEnumerateLoop d past fuel n).2 with
    | none =>
      have hnone : (dictEnumerate d past fuel n cur).2 = none := by
        rw [dictEnumerate, if_neg (by omega)]
        simp only [hr, Option.bind_none]
      simp [hnone] at hd
    | some next =>
      obtain ⟨rfl, hlt⟩ := h.loop_some (by omega) hn hr
      rcases h.enumerate_step cur (by omega) hr with
        ⟨hend, -, -⟩ | ⟨kp, m, hmem, hv, hcons, hs, hmlt, hm, hanswer⟩
      · omega
      · obtain ⟨key, hkey⟩ := (h.slots kp hmem).exists_live hv
        simp only [hanswer, Keypair.cursor, hkey] at hd
        rw [hcons, entriesOf_cons hkey]
        by_cases hmax : m < 2 ^ 31
        · rw [wrapInt_of_lt (by omega) (by omega), if_neg (by omega)] at hd
          obtain ⟨hlast, hne, hstream, herrors⟩ := ih hmax hd
          have hentries : entriesOf (d.liveFrom m) ≠ [] := by
            rw [← List.length_pos_iff, h.length_entriesOf_liveFrom]
            exact List.length_pos_iff.mpr hne
          refine ⟨hlast, List.cons_ne_nil _ _, ?_⟩
          rw [List.dropLast_cons_of_ne_nil hentries, List.map_cons, fprintfAll]
          refine ⟨hstream, herrors.trans ?_⟩
          dsimp only
          split_ifs <;> omega
        · have heq : m = 2 ^ 31 := by omega
          have hnil : d.liveFrom m = [] := by
            rw [liveFrom, List.drop_eq_nil_of_le (by omega)]
            rfl
          have hneg : wrapInt m < 0 := by
            rw [heq]
            decide
          rw [if_pos hneg] at hd
          cases hd
          refine ⟨⟨m - 1, by omega, kp, hs, hv⟩, List.cons_ne_nil _ _, ?_⟩
          rw [hnil]
          exact ⟨rfl, (Int.add_zero _).symm⟩

theorem WF.dictDumpLoop_isSome (h : d.WF) (hsize : d.size.toNat = 2 ^ 31)
    (hlast : d.LiveAhead (2 ^ 31 - 1)) (hn : n < 2 ^ 31)
    (hfuel : d.table.length + (d.liveFrom n).length + 1 < fuel) :
    ∃ r, dictDumpLoop d past ok fuel n cur out errors = some r := by
  induction fuel generalizing n cur out errors with
  | zero => omega
  | succ fuel ih =>
    have hlen := h.length
    have hahead : d.LiveAhead n := by
      obtain ⟨i, hi, hs⟩ := hlast
      exact ⟨i, by omega, hs⟩
    have hskip := (liveAhead_iff (by omega)).mp hahead
    rw [dictDumpLoop]
    rcases h.enumerate_step cur (by omega)
      (h.loop_returns past (by omega) (by omega) (show d.table.length - n < fuel by omega)) with
        ⟨hend, -, -⟩ | ⟨kp, m, hmem, hv, hcons, -, hmlt, hm, hanswer⟩
    · omega
    · obtain ⟨key, hkey⟩ := (h.slots kp hmem).exists_live hv
      simp only [hanswer, Keypair.cursor, hkey]
      by_cases hmax : m < 2 ^ 31
      · rw [hcons, List.length_cons] at hfuel
        rw [wrapInt_of_lt (by omega) (by omega), if_neg (by omega)]
        exact ih hmax (by omega)
      · have heq : m = 2 ^ 31 := by omega
        have hneg : wrapInt m < 0 := by
          rw [heq]
          decide
        rw [if_pos hneg]
        exact ⟨_, rfl⟩

theorem WF.not_dumps (h : d.WF) (hsize : d.size.toNat = 2 ^ 31) : ¬ d.Dumps past cur := by
  rintro ⟨bindings, hnodup, hmem, hreturns⟩
  obtain ⟨fuel, hd⟩ := hreturns (fun _ => true) Stream.empty
  obtain ⟨-, hne, hstream, -⟩ := h.dictDumpLoop_large hsize (n := 0) (by omega) hd
  have hperm : bindings.Perm d.entries :=
    (List.perm_ext_iff_of_nodup (hnodup.of_map _) (h.nodup_entries.of_map _)).mpr
      fun b => (hmem b.1 b.2).trans h.mem_entries_iff.symm
  have hcalls := congrArg Stream.calls hstream
  rw [fprintfAll_calls, fprintfAll_calls, List.length_map, List.length_map, hperm.length_eq,
    entriesOf_liveFrom, List.length_dropLast] at hcalls
  have hpos := List.length_pos_iff.mpr hne
  rw [← h.length_entriesOf_liveFrom, entriesOf_liveFrom] at hpos
  omega

theorem WF.entries_ne_nil (h : d.WF) (hlive : d.LiveAhead rank) : d.entries ≠ [] := by
  obtain ⟨i, -, kp, hs, hv⟩ := hlive
  have hmem := List.mem_of_getElem? hs
  obtain ⟨key, hkey⟩ := (h.slots kp hmem).exists_live hv
  exact List.ne_nil_of_mem (List.mem_filterMap.mpr ⟨kp, hmem, by simp [hkey]⟩ :
    (key, kp.val) ∈ d.entries)

theorem WF.dictDump_eq (h : d.WF) (hsize : d.size.toNat < 2 ^ 31) (past : Keypair)
    (ok : ℕ → Bool) (cur : Cursor) (out : Stream) :
    dictDump d past ok d.dumpFuel cur out =
      some (fprintfAll ok out (d.entries.map fun e => entryLine e.1 e.2)) := by
  have hle := d.length_liveFrom_le 0
  rw [dictDump, ← Nat.cast_zero, h.dictDumpLoop_eq hsize (Nat.zero_le _) (by rw [dumpFuel]; omega),
    entriesOf_liveFrom]
  simp

/-- Else it prints all but the last one, if that stands in the last slot, and does not come back if
not. -/
theorem WF.dictDump_large (h : d.WF) (hsize : d.size.toNat = 2 ^ 31) (past : Keypair)
    (ok : ℕ → Bool) (cur : Cursor) (out : Stream) :
    (d.LiveAhead (2 ^ 31 - 1) → dictDump d past ok d.dumpFuel cur out =
      some (fprintfAll ok out (d.entries.dropLast.map fun e => entryLine e.1 e.2))) ∧
    (¬ d.LiveAhead (2 ^ 31 - 1) → dictDump d past ok d.dumpFuel cur out = none) := by
  have hlarge {r : Stream × ℤ} (hd : dictDump d past ok d.dumpFuel cur out = some r) :=
    h.dictDumpLoop_large hsize (n := 0) (by omega) hd
  constructor
  · intro hlast
    have hle := d.length_liveFrom_le 0
    have hends : ∃ r, dictDump d past ok d.dumpFuel cur out = some r :=
      h.dictDumpLoop_isSome hsize hlast (n := 0) (by omega) (by rw [dumpFuel]; omega)
    obtain ⟨r, hd⟩ := hends
    obtain ⟨-, -, hstream, herrors⟩ := hlarge hd
    rw [entriesOf_liveFrom] at hstream herrors
    rw [Int.zero_add] at herrors
    exact hd.trans (congrArg some (Prod.ext hstream herrors))
  · intro hlast
    by_contra hd
    obtain ⟨r, hd⟩ := Option.ne_none_iff_exists'.mp hd
    exact hlast (hlarge hd).1

/-- The number `i` in decimal, its last digit first. -/
def numberKey (i : ℕ) : CString :=
  ⟨(Nat.digits 10 i).map fun digit => UInt8.ofNat (48 + digit), by
    intro hnul
    obtain ⟨digit, hdigit, hzero⟩ := List.mem_map.mp hnul
    have hlt := Nat.digits_lt_base (by omega) hdigit
    have hval := congrArg UInt8.toNat hzero
    rw [UInt8.toNat_ofNat'] at hval
    change (48 + digit) % 256 = 0 at hval
    omega⟩

theorem numberKey_injective : Function.Injective numberKey := by
  intro i j hij
  have hbytes : (numberKey i).bytes = (numberKey j).bytes := congrArg CString.bytes hij
  have hback (i : ℕ) : (numberKey i).bytes.map (fun c => c.toNat - 48) = Nat.digits 10 i := by
    rw [numberKey, List.map_map]
    conv_rhs => rw [← List.map_id (Nat.digits 10 i)]
    refine List.map_congr_left fun digit hdigit => ?_
    have hlt := Nat.digits_lt_base (by omega) hdigit
    change (UInt8.ofNat (48 + digit)).toNat - 48 = digit
    rw [UInt8.toNat_ofNat']
    omega
  apply Nat.digits.injective 10
  rw [← hback, hbytes, hback]

/-- Adds of `n` different keys. -/
def numberAdds (n : ℕ) : List DictOp := (List.range n).map fun i => .add (numberKey i) none

theorem mapOf_numberAdds {i : ℕ} (hi : i < n) : mapOf (numberAdds n) (numberKey i) ≠ none := by
  induction n with
  | zero => omega
  | succ n ih =>
    rw [numberAdds, List.range_succ, List.map_append, List.map_singleton, mapOf_snoc,
      DictOp.effect]
    by_cases hlast : i = n
    · rw [hlast, Function.update_self]
      exact Option.some_ne_none _
    · rw [Function.update_of_ne (numberKey_injective.ne hlast)]
      exact ih (by omega)

theorem exists_run_large (hn : n + 1 = 2 ^ 30) :
    ∃ d, Dict.Run (numberAdds n) d ∧ d.size.toNat = 2 ^ 31 := by
  have hlength : (numberAdds n).length = n := by
    rw [numberAdds, List.length_map, List.length_range]
  have hadds : ∀ op ∈ numberAdds n, ∃ key val, op = .add key val := by
    intro op hop
    obtain ⟨i, -, rfl⟩ := List.mem_map.mp hop
    exact ⟨_, _, rfl⟩
  obtain ⟨d, hrun, u, hu, hfilled⟩ := exists_run_of_adds hadds (by omega)
  refine ⟨d, hrun, ?_⟩
  have hmap := (run_wf_and_map hrun).2
  have hsub : (List.range n).map numberKey ⊆ d.entries.map Prod.fst := by
    intro key hkey
    obtain ⟨i, hi, rfl⟩ := List.mem_map.mp hkey
    have hsome := mapOf_numberAdds (List.mem_range.mp hi)
    obtain ⟨val, hval⟩ := Option.ne_none_iff_exists'.mp hsome
    rw [← hmap] at hval
    exact List.mem_map.mpr ⟨_, hfilled.wf.mem_entries_iff.mpr hval, rfl⟩
  have hle := (List.subperm_of_subset (List.nodup_range.map numberKey_injective) hsub).length_le
  rw [List.length_map, List.length_map, List.length_range] at hle
  have hlive := hfilled.live
  rw [← length_entriesOf] at hlive
  change d.entries.length ≤ u at hlive
  rcases IsTableSize.le_or_eq hfilled.wf.size with hsize | hsize
  · rcases hfilled.roomy with hroom | hroom <;> omega
  · exact hsize

end TooLarge

theorem exists_run_of_eval {ops : List DictOp} (h : (Dict.eval fuel ops).map Dict.size = some 8) :
    ∃ d, Dict.Run ops d ∧ d.size.toNat < 2 ^ 31 := by
  obtain ⟨d, hd, hsize⟩ := Option.map_eq_some_iff.mp h
  refine ⟨d, Dict.run_of_eval hd, ?_⟩
  rw [hsize]
  decide

/-- A dictionary is walked through as it should be, and its dump complete, exactly if its size is an
`int`. -/
theorem enumerateContract_iff {ops : List DictOp} (hrun : Dict.Run ops d) :
    d.EnumerateContract ↔ d.size.toNat < 2 ^ 31 := by
  have hwf := (run_wf_and_map hrun).1
  refine ⟨fun hcontract => ?_, hwf.enumerateContract⟩
  by_contra hlarge
  have hle := hwf.size.le
  exact hwf.not_dumps (by omega) (hcontract Keypair.zero ⟨.null, none, 0⟩).2

theorem enumerateContract_iff_one :
    ∃ d, Dict.Run [.add (.ofChars ['a']) (some (.ofChars ['1']))] d ∧ d.EnumerateContract := by
  have heval : (Dict.eval 20 [.add (.ofChars ['a']) (some (.ofChars ['1']))]).map Dict.size =
      some 8 := by decide +kernel
  obtain ⟨d, hrun, hsize⟩ := exists_run_of_eval heval
  exact ⟨d, hrun, (enumerateContract_iff hrun).mpr hsize⟩

/-- Adding the numbers below `2 ^ 30 - 1` makes a dictionary that `dict_dump` does not print. -/
theorem dump_incomplete : ¬ ∀ (ops : List DictOp) (d : Dict), Dict.Run ops d →
    d.EnumerateContract := by
  intro h
  obtain ⟨d, hrun, hsize⟩ := exists_run_large (n := 2 ^ 30 - 1) (by omega)
  exact (run_wf_and_map hrun).1.not_dumps hsize (h _ d hrun Keypair.zero ⟨.null, none, 0⟩).2

section Inside

variable {ops : List DictOp}

theorem WF.reads_iff (h : d.WF) (hle : rank ≤ d.size.toNat) (hlt : rank < 2 ^ 31) :
    d.ReadsInside past rank ↔ rank < 0 ∨ d.LiveAhead rank := by
  rw [← h.length] at hle
  by_cases hneg : rank < 0
  · refine iff_of_true (fun fuel cur i hi => ?_) (.inl hneg)
    rw [dictEnumerate, if_pos hneg] at hi
    cases hi
  · obtain ⟨n, rfl⟩ := Int.eq_ofNat_of_zero_le (not_lt.mp hneg)
    have hn : n ≤ d.table.length := by omega
    have hread (fuel : ℕ) (cur : Cursor) : (dictEnumerate d past fuel n cur).1 =
        (dictEnumerateLoop d past fuel n).1 := by
      rw [dictEnumerate, if_neg hneg]
    rw [or_iff_right hneg, liveAhead_iff hn, ReadsInside, ← h.length]
    simp only [hread]
    constructor
    · intro hinside
      by_contra hend
      have hlen : d.skipVacant n = d.table.length := by
        rcases skip_cases hn with ⟨hlen, -⟩ | ⟨kp, hs, -⟩
        · exact hlen
        · exact absurd (List.getElem?_eq_some_iff.mp hs).1 hend
      obtain ⟨i, hi, hout⟩ := h.loop_outside past hn (by omega) hlen (Nat.lt_succ_self _)
      exact hout (hinside _ ⟨.null, none, 0⟩ i hi)
    · intro hlive fuel cur i hi
      exact h.loop_inside hn (by omega) hlive hi

/-- `dict_enumerate` stays inside the table exactly if a live slot is left to end its loop. -/
theorem readsInside_iff (hrun : Dict.Run ops d) (hrank : RankOf ops d rank) (past : Keypair) :
    d.ReadsInside past rank ↔ rank < 0 ∨ d.LiveAhead rank :=
  (run_wf_and_map hrun).1.reads_iff hrank.le.1 hrank.le.2

theorem readsInside_iff_one : ∃ d, Dict.Run [.add (.ofChars ['b']) none] d ∧
    ∀ past, d.ReadsInside past 0 := by
  have hlive : (Dict.eval 20 [.add (.ofChars ['b']) none]).map (fun d =>
      d.table.any fun kp => !kp.vacant) = some true := by decide +kernel
  obtain ⟨d, hd, hany⟩ := Option.map_eq_some_iff.mp hlive
  have hrun := Dict.run_of_eval hd
  refine ⟨d, hrun, fun past => (readsInside_iff hrun (.inl rfl) past).mpr (.inr ?_)⟩
  obtain ⟨kp, hmem, hv⟩ := List.any_eq_true.mp hany
  obtain ⟨i, hi, rfl⟩ := List.getElem_of_mem hmem
  exact ⟨i, by omega, _, List.getElem?_eq_getElem hi, by simpa using hv⟩

/-- In a new dictionary the first call already reads behind the table. -/
theorem reads_behind_new : ¬ ∀ (ops : List DictOp) (d : Dict) (rank : ℤ) (past : Keypair),
    Dict.Run ops d → RankOf ops d rank → d.ReadsInside past rank := by
  intro h
  have hinside := h [] Dict.new 0 Keypair.zero (Exec.nil _) (.inl rfl)
  rcases (wf_new.reads_iff (by omega) (by omega)).mp hinside with hneg | ⟨i, -, kp, hs, hv⟩
  · omega
  · rw [List.eq_of_mem_replicate (List.mem_of_getElem? hs)] at hv
    cases hv

end Inside

end Dict

end JailFs
