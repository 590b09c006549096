import JailFs.DictHistory
import JailFs.Stdio
import JailFs.Transducer
import Mathlib.Data.List.DropRight

/-!
# Loading the configuration: `dconf_load`

The loop of `dconf_load` is a transducer over the contents that its buffer has round after round.
Its state is the section pointer and the flag `in_comment`; it emits the calls it makes and the
accesses that leave the buffer. `Loads` replays the calls on a dictionary from `dict_new`.

The loop that trims a line runs below the buffer when it finds nothing to keep. It comes back with
`end` at or below `skip` wherever it stops, so the line is skipped; what it overwrites down there
is not followed. The counters that are only logged are left out.
-/

namespace JailFs

/-- What `fgets(buf, sizeof(buf) - 1, fp)` stores at most, with `char buf[768]`. -/
def CONF_ROOM : ℕ := 766

theorem room_pos : 0 < CONF_ROOM := Nat.zero_lt_succ 765

/-- The string in a buffer of zeros into which `fgets` stored these bytes. -/
def CString.ofBuffer (buf : List UInt8) : CString :=
  ⟨buf.takeWhile (· ≠ 0), fun h => by simpa using List.mem_takeWhile_imp h⟩

theorem ofBuffer_eq {text tail : List UInt8} (h : 0 ∉ text) :
    (CString.ofBuffer (text ++ 0 :: tail)).bytes = text := by
  have hne : ∀ c ∈ text, decide (c ≠ 0) = true := by
    intro c hc
    rw [decide_eq_true_eq]
    rintro rfl
    exact h hc
  change (text ++ 0 :: tail).takeWhile (· ≠ 0) = text
  rw [List.takeWhile_append_of_pos hne, List.takeWhile_cons_of_neg (by decide), List.append_nil]

theorem bytes_ofBuffer {buf : List UInt8} (h : 0 ∉ buf) : (CString.ofBuffer buf).bytes = buf := by
  change buf.takeWhile (· ≠ 0) = buf
  rw [List.takeWhile_eq_self_iff]
  intro c hc
  simp only [ne_eq, decide_not, Bool.not_eq_true', decide_eq_false_iff_not]
  rintro rfl
  exact h hc

def CString.startsWith (s : CString) (l : List UInt8) : Bool := l.isPrefixOf s.bytes

/-- `tolower` in the C locale. -/
def tolower (c : UInt8) : UInt8 := if 65 ≤ c ∧ c ≤ 90 then c + 32 else c

theorem tolower_eq_of_lt {c x : UInt8} (h : tolower c = x) (hx : x < 97) : c = x := by
  unfold tolower at h
  split_ifs at h with hc
  · have hlow := congrArg UInt8.toNat h
    rw [UInt8.toNat_add] at hlow
    have h₁ := UInt8.le_iff_toNat_le.mp hc.1
    have h₂ := UInt8.le_iff_toNat_le.mp hc.2
    have h₃ := UInt8.lt_iff_toNat_lt.mp hx
    simp at h₁ h₂ h₃ hlow
    omega
  · exact h

/-- `strncasecmp(a, b, n) == 0` -/
def strncaseEq (a b : CString) (n : ℕ) : Bool :=
  (a.bytes.take n).map tolower = (b.bytes.take n).map tolower

/-- `'\r'`, `'\n'` and `' '`, which the trimming loop overwrites. -/
def isTrimmed (c : UInt8) : Bool := c = 13 || c = 10 || c = 32

def trimEnd (s : CString) : CString :=
  s.ofSubset (s.bytes.rdropWhile isTrimmed) (List.rdropWhile_prefix isTrimmed _).subset

/-- The string from `skip` on. -/
def skipBlanks (s : CString) : CString :=
  s.ofSubset (s.bytes.dropWhile (· = 32)) (List.dropWhile_sublist _).subset

/-- The string from `skip` to `end`. -/
def confSkip (buf : List UInt8) : CString := skipBlanks (trimEnd (.ofBuffer buf))

/-- The characters between the brackets: `strndup(skip + 1, strlen(skip) - 2)`. -/
def sectionName (skip : CString) : CString :=
  skip.ofSubset ((skip.bytes.drop 1).take (skip.length - 2))
    ((List.take_sublist _ _).trans (List.drop_sublist 1 _)).subset

/-- The delimiters `"= \n"`. -/
def confDelim (c : UInt8) : Bool := c = 61 || c = 32 || c = 10

/-- `key = strtok(skip, "= \n"); val = strtok(NULL, "= \n");` A second call answers `NULL` when the
first one did. -/
def keyVal (skip : CString) : Option CString × Option CString :=
  match strtok confDelim skip with
  | none => (none, none)
  | some (key, rest) => (some key, (strtok confDelim rest).map Prod.fst)

/-- What `dconf_load` does besides its bookkeeping. -/
inductive LoadEvent
  | belowBuffer
  | nullToken
  | nullStream
  | dictAdd (key val : Option CString)
  deriving DecidableEq

/-- `section` and `in_comment`. -/
structure LoadState where
  sect : Option CString
  inComment : Bool
  deriving DecidableEq

def LoadState.init : LoadState := ⟨none, false⟩

/-- `;`, `#` or `//` -/
def isLineComment (skip : CString) : Bool :=
  skip.startsWith [59] || skip.startsWith [35] || skip.startsWith [47, 47]

def generalName : CString := .ofChars "general".toList

def jailName : CString := .ofChars "jail".toList

def languageName : CString := .ofChars "language".toList

/-- `"@END"`, which leaves a section early. -/
def endMark : CString := .ofChars "@END".toList

/-- A line inside `section`. A section of another name is ignored, with or without a warning, and
the branches of a language line that look at the key do nothing. -/
def sectionLine (sect skip : CString) : List LoadEvent :=
  let kv := keyVal skip
  if strncaseEq sect generalName 7 then [.dictAdd kv.1 kv.2]
  else if strncaseEq sect jailName 4 then []
  else if strncaseEq sect languageName 8 then
    if kv.1 = none then [.nullToken] else []
  else []

/-- The rest of a round for a line that is not in a comment. The lines of a preprocessor that
start with `@` fall through, but for `@END`. -/
def textLine (σ : LoadState) (skip : CString) : LoadState × List LoadEvent :=
  if skip.startsWith [91] ∧ skip.bytes.getLast? = some 93 then
    ({ σ with sect := some (sectionName skip) }, [])
  else
    match σ.sect with
    | none => (σ, [])
    | some sect =>
      if strncaseEq skip endMark 4 then ({ σ with sect := none }, [])
      else (σ, sectionLine sect skip)

/-- One round of the loop, with `buf` in the buffer. -/
def confLine (σ : LoadState) (buf : List UInt8) : LoadState × List LoadEvent :=
  let skip := confSkip buf
  if (trimEnd (.ofBuffer buf)).bytes = [] then (σ, [.belowBuffer])
  else if skip.length ≤ 1 then (σ, [])
  else if skip.startsWith [42, 47] then ({ σ with inComment := false }, [])
  else if isLineComment skip then (σ, [])
  else
    let inComment := skip.startsWith [47, 42] || σ.inComment
    if inComment then ({ σ with inComment := true }, [])
    -- the second test for line comments cannot succeed here
    else textLine σ skip

/-- Everything `dconf_load` does on a file that may not be opened. -/
def loadEvents : Option (List UInt8) → List LoadEvent
  | none => [.nullStream]
  | some text => Transducer.output confLine .init (Stdio.reads CONF_ROOM text)

/-- The effect of an event on the dictionary `cp`. A `NULL` token does not survive
`strncasecmp`. -/
inductive LoadEvent.Step (d : Dict) : LoadEvent → Dict → Prop
  | belowBuffer : Step d .belowBuffer d
  | dictAdd {key val : Option CString} {d' : Dict}
      (run : ∃ env fuel rc, env.NoFail ∧ d.add env fuel key val = some (d', rc)) :
      Step d (.dictAdd key val) d'

/-- `dconf_load` fills the dictionary `d` from a file with this text. -/
def Loads (text : List UInt8) (d : Dict) : Prop :=
  Exec LoadEvent.Step Dict.new (loadEvents (some text)) d

/-- What `dconf_load` returns, `none` for `NULL`, if the call `fclose(NULL)` comes back. -/
inductive DconfLoad : Option (List UInt8) → Option Dict → Prop
  | unopened : DconfLoad none none
  | loaded {text : List UInt8} {d : Dict} (run : Loads text d) : DconfLoad (some text) (some d)

section Lines

variable {σ : LoadState} {buf : List UInt8} {sect skip : CString}

/-- The string in the buffer has only characters that the trimming loop overwrites. -/
def OnlyTrimmed (buf : List UInt8) : Prop := ∀ c ∈ (CString.ofBuffer buf).bytes, isTrimmed c

instance (buf : List UInt8) : Decidable (OnlyTrimmed buf) :=
  inferInstanceAs (Decidable (∀ c ∈ _, _))

theorem trimEnd_bytes_eq_nil_iff : (trimEnd (.ofBuffer buf)).bytes = [] ↔ OnlyTrimmed buf :=
  List.rdropWhile_eq_nil_iff

theorem CString.startsWith_iff {s : CString} {l : List UInt8} :
    s.startsWith l ↔ l <+: s.bytes := List.isPrefixOf_iff_prefix

/-- Two names that agree with a third up to `n` and `m` characters agree up to the shorter one. -/
theorem strncaseEq_trans {s a b : CString} {n m : ℕ} (ha : strncaseEq s a n) (hmn : m ≤ n)
    (hb : strncaseEq s b m) : strncaseEq a b m := by
  simp only [strncaseEq, decide_eq_true_eq] at ha hb ⊢
  have htake := congrArg (List.take m) ha
  rw [← List.map_take, ← List.map_take, List.take_take, List.take_take,
    Nat.min_eq_left hmn] at htake
  exact htake.symm.trans hb

theorem keyVal_fst_eq_none_iff : (keyVal skip).1 = none ↔ ∀ c ∈ skip.bytes, confDelim c := by
  rw [← strtok_eq_none_iff, keyVal]
  cases strtok confDelim skip <;> simp

/-- The branch that a line takes, apart from the flag `in_comment`. -/
inductive LineKind
  | short
  | close
  | remark
  | opening
  | text
  deriving DecidableEq

def lineKind (skip : CString) : LineKind :=
  if skip.length ≤ 1 then .short
  else if skip.startsWith [42, 47] then .close
  else if isLineComment skip then .remark
  else if skip.startsWith [47, 42] then .opening
  else .text

theorem confLine_of_onlyTrimmed (h : OnlyTrimmed buf) : confLine σ buf = (σ, [.belowBuffer]) := by
  rw [confLine, if_pos (trimEnd_bytes_eq_nil_iff.mpr h)]

theorem confLine_eq (h : ¬ OnlyTrimmed buf) : confLine σ buf =
    match lineKind (confSkip buf) with
    | .short => (σ, [])
    | .close => ({ σ with inComment := false }, [])
    | .remark => (σ, [])
    | .opening => ({ σ with inComment := true }, [])
    | .text => if σ.inComment then (σ, []) else textLine σ (confSkip buf) := by
  rw [confLine, if_neg (mt trimEnd_bytes_eq_nil_iff.mp h), lineKind]
  generalize confSkip buf = skip
  by_cases hshort : skip.length ≤ 1
  · simp only [if_pos hshort]
  by_cases hclose : skip.startsWith [42, 47]
  · simp only [if_neg hshort, if_pos hclose]
  by_cases hremark : isLineComment skip
  · simp only [if_neg hshort, if_neg hclose, if_pos hremark]
  simp only [if_neg hshort, if_neg hclose, if_neg hremark]
  by_cases hopen : skip.startsWith [47, 42]
  · simp only [hopen, Bool.true_or, if_true]
  · rw [Bool.not_eq_true] at hopen
    obtain ⟨sect, inComment⟩ := σ
    cases inComment <;> simp [hopen]

/-- A line of text sets the section whatever it was, or leaves it and goes to its branch. -/
theorem textLine_cases (skip : CString) :
    (∃ sect, ∀ σ, textLine σ skip = (⟨sect, σ.inComment⟩, [])) ∨
      (¬ (skip.startsWith [91] ∧ skip.bytes.getLast? = some 93) ∧
        strncaseEq skip endMark 4 = false ∧
        ∀ σ, textLine σ skip = (σ, (σ.sect.map fun sect => sectionLine sect skip).getD [])) := by
  unfold textLine
  by_cases hheader : skip.startsWith [91] ∧ skip.bytes.getLast? = some 93
  · exact Or.inl ⟨_, fun σ => if_pos hheader⟩
  · simp only [if_neg hheader]
    by_cases hend : strncaseEq skip endMark 4
    · refine Or.inl ⟨none, fun σ => ?_⟩
      obtain ⟨sect, inComment⟩ := σ
      cases sect with
      | none => rfl
      | some sect => simp only [hend, if_true]
    · refine Or.inr ⟨hheader, by simpa using hend, fun σ => ?_⟩
      cases hs : σ.sect with
      | none => rfl
      | some sect =>
        simp only [if_neg hend]
        rfl

theorem confSkip_of_onlyTrimmed (h : OnlyTrimmed buf) : lineKind (confSkip buf) = .short := by
  have hnil := trimEnd_bytes_eq_nil_iff.mpr h
  have hskip : (confSkip buf).bytes = [] := by
    change (trimEnd (.ofBuffer buf)).bytes.dropWhile _ = []
    rw [hnil]
    rfl
  rw [lineKind, CString.length, hskip]
  rfl

theorem not_onlyTrimmed_of_text (h : lineKind (confSkip buf) = .text) : ¬ OnlyTrimmed buf := by
  intro htrim
  rw [confSkip_of_onlyTrimmed htrim] at h
  cases h

end Lines

end JailFs
