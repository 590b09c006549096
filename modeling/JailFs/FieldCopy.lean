import JailFs.ConfLoad
import JailFs.Memory
import JailFs.VfsCache

/-!
# Strings copied into fields of a fixed size

`api_create_message` and `vfs_add_path` copy strings with `memcpy`, by the size of the field and
not by the length of the string. So what follows a shorter string in memory is copied with it, and
`api_create_message` leaves no room for the NUL of a longer one.
-/

namespace JailFs

open Memory

def API_ADDR_MAX : ℕ := 64

def API_CMD_MAX : ℕ := 64

/-- The size of `owner` and `group` in a cache entry. -/
def OWNER_MAX : ℕ := 32

/-- `memcpy` of `n` bytes from `src` into a zeroed field. -/
def memcpyField (size n : ℕ) (mem : ℕ → UInt8) (src : ℕ) : List UInt8 :=
  (List.range n).map (fun i => mem (src + i)) ++ List.replicate (size - n) 0

/-- An `APImsg` as `api_create_message` fills it. -/
structure ApiMessage where
  sender : List UInt8
  dest : List UInt8
  cmd : List UInt8
  flags : UInt32
  priority : UInt8
  req : Dict
  res : Dict

def apiCreateMessage (mem : ℕ → UInt8) (sender dest cmd : ℕ) : ApiMessage :=
  ⟨memcpyField API_ADDR_MAX API_ADDR_MAX mem sender, memcpyField API_ADDR_MAX API_ADDR_MAX mem dest,
    memcpyField API_CMD_MAX API_CMD_MAX mem cmd, 0, 0, .new, .new⟩

/-- The bytes of the strings in the cache entry that `vfs_add_path` adds. -/
structure PathFields where
  path : List UInt8
  owner : List UInt8
  group : List UInt8

/-- A field that is filled only from a pointer that is not `NULL`. -/
def memcpyOpt (size : ℕ) (mem : ℕ → UInt8) : Option ℕ → List UInt8
  | none => List.replicate size 0
  | some src => memcpyField size (size - 1) mem src

def vfsAddPathFields (mem : ℕ → UInt8) (path : ℕ) (owner group : Option ℕ) : PathFields :=
  ⟨memcpyField PATH_MAX (PATH_MAX - 1) mem path, memcpyOpt OWNER_MAX mem owner,
    memcpyOpt OWNER_MAX mem group⟩

def StringAt (mem : ℕ → UInt8) (p : ℕ) (s : CString) : Prop := HoldsAt mem p (s.bytes ++ [0])

/-- What is expected of a field that is filled in two memories with the same string: it is the same
in both and holds as much of the string as fits, with a NUL after it. -/
def FieldContract (size : ℕ) (s : CString) (field field' : List UInt8) : Prop :=
  field = field' ∧ 0 ∈ field ∧ CString.ofBuffer field = s.take (size - 1)

def MessageContract (sender dest cmd : CString) : Prop :=
  ∀ mem mem' p q r, StringAt mem p sender → StringAt mem q dest → StringAt mem r cmd →
    StringAt mem' p sender → StringAt mem' q dest → StringAt mem' r cmd →
    let msg := apiCreateMessage mem p q r
    let msg' := apiCreateMessage mem' p q r
    FieldContract API_ADDR_MAX sender msg.sender msg'.sender ∧
      FieldContract API_ADDR_MAX dest msg.dest msg'.dest ∧
      FieldContract API_CMD_MAX cmd msg.cmd msg'.cmd

/-- The same for a cache entry, whose owner and group may be missing. -/
def PathContract (path : CString) (owner group : Option CString) : Prop :=
  ∀ mem mem' p q r, StringAt mem p path → (∀ s ∈ owner, StringAt mem q s) →
    (∀ s ∈ group, StringAt mem r s) → StringAt mem' p path → (∀ s ∈ owner, StringAt mem' q s) →
    (∀ s ∈ group, StringAt mem' r s) →
    let fe := vfsAddPathFields mem p (owner.map fun _ => q) (group.map fun _ => r)
    let fe' := vfsAddPathFields mem' p (owner.map fun _ => q) (group.map fun _ => r)
    FieldContract PATH_MAX path fe.path fe'.path ∧
      FieldContract OWNER_MAX (owner.getD (.ofChars [])) fe.owner fe'.owner ∧
      FieldContract OWNER_MAX (group.getD (.ofChars [])) fe.group fe'.group

section Field

variable {mem mem' : ℕ → UInt8} {p size n : ℕ} {s : CString}

/-- Where no byte after the NUL is copied, the field is made of bytes of the string. -/
theorem memcpyField_of_le (hs : StringAt mem p s) (hn : n ≤ s.length + 1) :
    memcpyField size n mem p = (s.bytes ++ [0]).take n ++ List.replicate (size - n) 0 := by
  rw [memcpyField]
  congr 1
  apply List.ext_getElem
  · rw [List.length_map, List.length_range, List.length_take, s.length_bytes_nul]
    exact (Nat.min_eq_left hn).symm
  · intro i hi hi'
    rw [List.length_take] at hi'
    rw [List.getElem_map, List.getElem_range, List.getElem_take]
    exact hs i (by omega)

theorem getElem?_memcpyField (hn : s.length + 1 < n) :
    (memcpyField size n mem p)[s.length + 1]? = some (mem (p + (s.length + 1))) := by
  rw [memcpyField, List.getElem?_append_left (by simpa using hn)]
  simp [hn]

theorem take_bytes_nul (h : s.length < n) : (s.bytes ++ [0]).take n = s.bytes ++ [0] := by
  apply List.take_of_length_le
  rw [s.length_bytes_nul]
  exact h

theorem fieldContract_full (hs : StringAt mem p s) (hs' : StringAt mem' p s)
    (hsize : s.length + 1 = size) :
    FieldContract size s (memcpyField size size mem p) (memcpyField size size mem' p) := by
  rw [memcpyField_of_le hs hsize.ge, memcpyField_of_le hs' hsize.ge]
  rw [take_bytes_nul hsize.le]
  refine ⟨rfl, by simp, ?_⟩
  rw [CString.take_of_length_le (show s.length ≤ size - 1 by omega)]
  apply CString.ext
  rw [List.append_assoc]
  exact ofBuffer_eq s.noNul

/-- All bytes but the last are copied from a string that fills them, with or without its NUL. -/
theorem fieldContract_cut (hs : StringAt mem p s) (hs' : StringAt mem' p s) (hpos : 0 < size)
    (hsize : size ≤ s.length + 2) :
    FieldContract size s (memcpyField size (size - 1) mem p)
      (memcpyField size (size - 1) mem' p) := by
  have hn : size - 1 ≤ s.length + 1 := by omega
  rw [memcpyField_of_le hs hn, memcpyField_of_le hs' hn]
  have hone : List.replicate (size - (size - 1)) (0 : UInt8) = [0] := by
    rw [show size - (size - 1) = 1 by omega]
    rfl
  rw [hone]
  refine ⟨rfl, by simp, CString.ext ?_⟩
  rw [CString.bytes_take]
  rcases Nat.lt_or_ge s.length (size - 1) with hlt | hge
  · rw [take_bytes_nul hlt, List.append_assoc, List.take_of_length_le hlt.le]
    exact ofBuffer_eq s.noNul
  · rw [List.take_append_of_le_length hge]
    exact ofBuffer_eq fun h0 => s.noNul (List.mem_of_mem_take h0)

variable (hs : StringAt mem p s)
  (hdiffer : mem (p + (s.length + 1)) ≠ mem' (p + (s.length + 1)))

include hdiffer

theorem le_of_memcpyField_eq (h : memcpyField size n mem p = memcpyField size n mem' p) :
    n ≤ s.length + 1 := by
  by_contra hlt
  have hbyte : (memcpyField size n mem p)[s.length + 1]? =
      (memcpyField size n mem' p)[s.length + 1]? := by rw [h]
  rw [getElem?_memcpyField (not_le.mp hlt), getElem?_memcpyField (not_le.mp hlt),
    Option.some_inj] at hbyte
  exact hdiffer hbyte

include hs

theorem size_of_fieldContract
    (h : FieldContract size s (memcpyField size size mem p) (memcpyField size size mem' p)) :
    s.length + 1 = size := by
  have hle := le_of_memcpyField_eq hdiffer h.1
  refine Nat.le_antisymm ?_ hle
  by_contra hlt
  -- no NUL fits behind a longer string
  have hnul := h.2.1
  rw [memcpyField_of_le hs hle, Nat.sub_self, List.replicate_zero, List.append_nil,
    List.take_append_of_le_length (show size ≤ s.bytes.length by
      rw [s.length_bytes]
      omega)] at hnul
  exact s.noNul (List.mem_of_mem_take hnul)

end Field

section Opt

variable {mem mem' : ℕ → UInt8} {p size : ℕ} {o : Option CString}

theorem fieldContract_opt (hpos : 0 < size) (hs : ∀ s ∈ o, StringAt mem p s)
    (hs' : ∀ s ∈ o, StringAt mem' p s) (hlen : ∀ s ∈ o, size ≤ s.length + 2) :
    FieldContract size (o.getD (.ofChars [])) (memcpyOpt size mem (o.map fun _ => p))
      (memcpyOpt size mem' (o.map fun _ => p)) := by
  cases o with
  | none =>
    obtain ⟨n, rfl⟩ := Nat.exists_eq_add_of_lt hpos
    refine ⟨rfl, by simp [memcpyOpt], CString.ext ?_⟩
    simp [memcpyOpt, CString.ofBuffer, List.replicate_succ, CString.ofChars]
  | some s => exact fieldContract_cut (hs s rfl) (hs' s rfl) hpos (hlen s rfl)

theorem le_of_fieldContract_opt {s : CString}
    (hdiffer : mem (p + ((o.getD s).length + 1)) ≠ mem' (p + ((o.getD s).length + 1)))
    (h : FieldContract size (o.getD (.ofChars [])) (memcpyOpt size mem (o.map fun _ => p))
      (memcpyOpt size mem' (o.map fun _ => p))) : ∀ s ∈ o, size ≤ s.length + 2 := by
  rintro s rfl
  have hle : size - 1 ≤ s.length + 1 := le_of_memcpyField_eq hdiffer h.1
  omega

end Opt

theorem exists_memories (a b c : CString) : ∃ mem mem' : ℕ → UInt8, ∃ p q r : ℕ,
    (StringAt mem p a ∧ StringAt mem q b ∧ StringAt mem r c) ∧
      (StringAt mem' p a ∧ StringAt mem' q b ∧ StringAt mem' r c) ∧
      mem (p + (a.length + 1)) ≠ mem' (p + (a.length + 1)) ∧
      mem (q + (b.length + 1)) ≠ mem' (q + (b.length + 1)) ∧
      mem (r + (c.length + 1)) ≠ mem' (r + (c.length + 1)) := by
  let blob (x : UInt8) : List UInt8 :=
    (a.bytes ++ [0] ++ [x]) ++ ((b.bytes ++ [0] ++ [x]) ++ (c.bytes ++ [0] ++ [x]))
  let mem (x : UInt8) (i : ℕ) : UInt8 := (blob x).getD i 0
  have hall (x : UInt8) : HoldsAt (mem x) 0 (blob x) := holdsAt_getD _ _
  let q := 0 + (a.length + 2)
  let r := q + (b.length + 2)
  have hp (x : UInt8) : HoldsAt (mem x) 0 (a.bytes ++ [0] ++ [x]) := (hall x).left
  have hbc (x : UInt8) : HoldsAt (mem x) q
      ((b.bytes ++ [0] ++ [x]) ++ (c.bytes ++ [0] ++ [x])) := by
    have h := (hall x).right
    simp only [List.length_append, List.length_singleton] at h
    exact h
  have hq (x : UInt8) : HoldsAt (mem x) q (b.bytes ++ [0] ++ [x]) := (hbc x).left
  have hr (x : UInt8) : HoldsAt (mem x) r (c.bytes ++ [0] ++ [x]) := by
    have h := (hbc x).right
    simp only [List.length_append, List.length_singleton] at h
    exact h
  have hlast {s : CString} {p : ℕ} {x : UInt8} (h : HoldsAt (mem x) p (s.bytes ++ [0] ++ [x])) :
      mem x (p + (s.length + 1)) = x := by
    have hx := h.right.head
    simp only [List.length_append, List.length_singleton] at hx
    exact hx
  have hne {s : CString} {p : ℕ} (h : ∀ x, HoldsAt (mem x) p (s.bytes ++ [0] ++ [x])) :
      mem 1 (p + (s.length + 1)) ≠ mem 2 (p + (s.length + 1)) := by
    rw [hlast (h 1), hlast (h 2)]
    decide
  exact ⟨mem 1, mem 2, 0, q, r, ⟨(hp 1).left, (hq 1).left, (hr 1).left⟩,
    ⟨(hp 2).left, (hq 2).left, (hr 2).left⟩, hne hp, hne hq, hne hr⟩

/-- The fields of a message hold their strings, and nothing else, exactly if each string has 63
bytes. Those of a cache entry do exactly if no string is shorter than its field by more than two
bytes. -/
theorem fields_contract_iff (sender dest cmd path : CString) (owner group : Option CString) :
    (MessageContract sender dest cmd ↔
      sender.length = 63 ∧ dest.length = 63 ∧ cmd.length = 63) ∧
    (PathContract path owner group ↔
      4094 ≤ path.length ∧ (∀ s ∈ owner, 30 ≤ s.length) ∧ ∀ s ∈ group, 30 ≤ s.length) := by
  refine ⟨⟨fun h => ?_, ?_⟩, fun h => ?_, ?_⟩
  · obtain ⟨mem, mem', p, q, r, ⟨hp, hq, hr⟩, ⟨hp', hq', hr'⟩, hdp, hdq, hdr⟩ :=
      exists_memories sender dest cmd
    obtain ⟨h₁, h₂, h₃⟩ := h mem mem' p q r hp hq hr hp' hq' hr'
    exact ⟨Nat.succ.inj (size_of_fieldContract hp hdp h₁),
      Nat.succ.inj (size_of_fieldContract hq hdq h₂),
      Nat.succ.inj (size_of_fieldContract hr hdr h₃)⟩
  · rintro ⟨h₁, h₂, h₃⟩ mem mem' p q r hp hq hr hp' hq' hr'
    exact ⟨fieldContract_full hp hp' (congrArg Nat.succ h₁),
      fieldContract_full hq hq' (congrArg Nat.succ h₂),
      fieldContract_full hr hr' (congrArg Nat.succ h₃)⟩
  · obtain ⟨mem, mem', p, q, r, ⟨hp, hq, hr⟩, ⟨hp', hq', hr'⟩, hdp, hdq, hdr⟩ :=
      exists_memories path (owner.getD (.ofChars [])) (group.getD (.ofChars []))
    obtain ⟨h₁, h₂, h₃⟩ := h mem mem' p q r hp (fun s hs => by cases hs; exact hq)
      (fun s hs => by cases hs; exact hr) hp' (fun s hs => by cases hs; exact hq')
      (fun s hs => by cases hs; exact hr')
    refine ⟨?_, fun s hs => ?_, fun s hs => ?_⟩
    · have hle := le_of_memcpyField_eq (n := PATH_MAX - 1) hdp h₁.1
      simp only [PATH_MAX] at hle
      omega
    · have hle := le_of_fieldContract_opt hdq h₂ s hs
      simp only [OWNER_MAX] at hle
      omega
    · have hle := le_of_fieldContract_opt hdr h₃ s hs
      simp only [OWNER_MAX] at hle
      omega
  · rintro ⟨h₁, h₂, h₃⟩ mem mem' p q r hp hq hr hp' hq' hr'
    refine ⟨fieldContract_cut hp hp' (by decide) ?_, ?_, ?_⟩
    · simp only [PATH_MAX]
      omega
    · refine fieldContract_opt (by decide) hq hq' fun s hs => ?_
      have := h₂ s hs
      simp only [OWNER_MAX]
      omega
    · refine fieldContract_opt (by decide) hr hr' fun s hs => ?_
      have := h₃ s hs
      simp only [OWNER_MAX]
      omega

/-- The byte behind `"a"` gets into the message. -/
theorem message_leaks : ¬ MessageContract (.ofChars ['a']) (.ofChars ['b']) (.ofChars ['c']) := by
  intro h
  obtain ⟨mem, mem', p, q, r, ⟨hp, hq, hr⟩, ⟨hp', hq', hr'⟩, hdiffer, -, -⟩ :=
    exists_memories (.ofChars ['a']) (.ofChars ['b']) (.ofChars ['c'])
  have hsize := size_of_fieldContract hp hdiffer (h mem mem' p q r hp hq hr hp' hq' hr').1
  exact absurd hsize (by decide)

section Strings

variable {mem : ℕ → UInt8} {p q r size n : ℕ} {l : List UInt8} {s : CString} {o : Option CString}

theorem exists_memcpyField (size : ℕ) (hl : HoldsAt mem p l) (hn : l.length ≤ n) :
    ∃ tail, memcpyField size n mem p = l ++ tail := by
  obtain ⟨k, rfl⟩ := Nat.exists_eq_add_of_le hn
  have hfirst : (List.range l.length).map (fun i => mem (p + i)) = l := by
    apply List.ext_getElem (by simp)
    intro i hi hi'
    rw [List.getElem_map, List.getElem_range]
    exact hl i hi'
  rw [memcpyField, List.range_add, List.map_append, hfirst, List.append_assoc]
  exact ⟨_, rfl⟩

theorem ofBuffer_memcpyField (hpos : 0 < size) (hs : StringAt mem p s) :
    CString.ofBuffer (memcpyField size (size - 1) mem p) = copyField size (some s) := by
  rcases Nat.lt_or_ge (s.length + 2) size with hlt | hge
  · have hlen : (s.bytes ++ [0]).length ≤ size - 1 := by
      rw [s.length_bytes_nul]
      omega
    obtain ⟨tail, htail⟩ := exists_memcpyField size hs hlen
    rw [htail, copyField, CString.take_of_length_le (show s.length ≤ size - 1 by omega)]
    apply CString.ext
    rw [List.append_assoc]
    exact ofBuffer_eq s.noNul
  · exact (fieldContract_cut hs hs hpos hge).2.2

theorem ofBuffer_memcpyOpt (hpos : 0 < size) (hs : ∀ s ∈ o, StringAt mem p s) :
    CString.ofBuffer (memcpyOpt size mem (o.map fun _ => p)) = copyField size o := by
  cases o with
  | none =>
    have h := fieldContract_opt (o := none) hpos hs hs fun _ h => by cases h
    exact h.2.2.trans (CString.take_of_length_le (Nat.zero_le _))
  | some s => exact ofBuffer_memcpyField hpos (hs s rfl)

/-- Read as strings, the fields are those of the entry that `vfsAddPath` adds to the cache. -/
theorem vfsAddPathFields_strings {path : CString} {owner group : Option CString}
    (hp : StringAt mem p path) (hq : ∀ s ∈ owner, StringAt mem q s)
    (hr : ∀ s ∈ group, StringAt mem r s) :
    let fe := vfsAddPathFields mem p (owner.map fun _ => q) (group.map fun _ => r)
    CString.ofBuffer fe.path = copyField PATH_MAX (some path) ∧
      CString.ofBuffer fe.owner = copyField 32 owner ∧
      CString.ofBuffer fe.group = copyField 32 group :=
  ⟨ofBuffer_memcpyField (by decide) hp, ofBuffer_memcpyOpt (by decide) hq,
    ofBuffer_memcpyOpt (by decide) hr⟩

end Strings

end JailFs
