import JailFs.DictHistory
import JailFs.DictLoad
import JailFs.Stdio

/-!
# The entries of a dictionary

`dict_dump` writes a line for each live slot, in the order of the table. In a well-formed
dictionary these are the bindings of its map, each once.
-/

namespace JailFs

open Stdio

/-- `NULL` or `DUMMY_PTR`, which `dict_enumerate` passes over. -/
def Keypair.vacant (kp : Keypair) : Bool := kp.key = .null || kp.key = .dummy

theorem Keypair.Ok.exists_live {kp : Keypair} (h : kp.Ok) (hv : kp.vacant = false) :
    ∃ key, kp.key = .live key := by
  cases hk : kp.key with
  | live key => exact ⟨key, rfl⟩
  | freed => simp only [Ok, hk] at h
  | _ => simp [vacant, hk] at hv

/-- `"UNDEF"`, printed for a value that is `NULL`. -/
def undef : CString := .ofChars "UNDEF".toList

/-- `"%s=%s\n"` -/
def entryLine (key : CString) (val : Option CString) : List UInt8 :=
  key.bytes ++ [61] ++ (val.getD undef).bytes ++ [newline]

namespace Dict

def entriesOf (table : List Keypair) : List (CString × Option CString) :=
  table.filterMap fun kp =>
    match kp.key with
    | .live key => some (key, kp.val)
    | _ => none

def entries (d : Dict) : List (CString × Option CString) := entriesOf d.table

section Entries

variable {d : Dict} {table : List Keypair} {key : CString} {val : Option CString}

theorem mem_entriesOf_iff (hd : KeysDistinct table) :
    (key, val) ∈ entriesOf table ↔ tableMap table key = some val := by
  induction table with
  | nil => simp [entriesOf, tableMap]
  | cons kp table ih =>
    have ih := ih (List.pairwise_cons.mp hd).2
    rw [tableMap_cons, entriesOf, List.filterMap_cons]
    by_cases hk : kp.holds key
    · have htail : (key, val) ∉ entriesOf table := by
        rw [ih, tableMap_eq_none_of_distinct hd hk]
        exact Option.some_ne_none val ∘ Eq.symm
      rw [if_pos hk, Keypair.holds_iff.mp hk, Option.some.injEq]
      constructor
      · intro hmem
        rcases List.mem_cons.mp hmem with heq | hmem
        · exact (congrArg Prod.snd heq).symm
        · exact absurd hmem htail
      · rintro rfl
        exact List.mem_cons_self
    · rw [if_neg hk, ← ih]
      cases hkey : kp.key with
      | live key' =>
        have hne : key ≠ key' := by
          rintro rfl
          exact hk (Keypair.holds_iff.mpr hkey)
        simp [entriesOf, hne]
      | _ => rfl

theorem length_entriesOf (table : List Keypair) :
    (entriesOf table).length = liveCount table := by
  induction table with
  | nil => rfl
  | cons kp table ih =>
    rw [entriesOf] at ih
    rw [entriesOf, List.filterMap_cons, liveCount, List.countP_cons, ← liveCount, ← ih]
    cases hk : kp.key <;> simp [Keypair.isLive, hk]

theorem WF.mem_entries_iff (h : d.WF) : (key, val) ∈ d.entries ↔ d.toMap key = some val :=
  mem_entriesOf_iff h.keysDistinct

end Entries

end Dict

end JailFs
