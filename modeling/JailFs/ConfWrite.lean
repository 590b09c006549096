import JailFs.DictEnumerate
import Mathlib.Logic.Function.Basic

/-!
# Saving the configuration: `dconf_write`

The configuration is written to `<file>.auto`, which then takes the place of `file`. `dconf_write`
decides whether it may from a count of failed writes that misses the lines of `dict_dump`, from
the value that `errno` happens to hold, and not at all from `fclose`. Of a table of `2 ^ 31` slots
`dict_dump` leaves out the last line.
-/

namespace JailFs

open Stdio

/-- The text of `ctime` is 24 characters and a newline. -/
structure CTime where
  text : CString
  length_text : text.length = 24
  noNewline : newline ∉ text.bytes

/-- What the C library does during one call of `dconf_write`: `errno` on entry, which an `fopen`
that succeeds does not change, whether `fopen` succeeds, the time, which calls of `fprintf`
succeed, and how many bytes are lost when the last of them are flushed in `fclose`. For `dict_dump`
also what lies behind the table and what its variables hold at first. -/
structure WriteEnv where
  errno : ℤ
  opens : Bool
  ctime : CTime
  ok : ℕ → Bool
  lost : ℕ
  past : Keypair
  cur : Cursor

abbrev Files := CString → Option (List UInt8)

/-- The line that `fprintf` writes first; `ctime` brings a newline of its own. -/
def headerLine (t : CTime) : List UInt8 :=
  bytesOf "# This configuration file automatically saved on " ++ (t.text.bytes ++ [newline]) ++
    [newline]

def sectionHeader : List UInt8 := bytesOf "[general]" ++ [newline]

def errorLine (errors : ℤ) : List UInt8 :=
  bytesOf ("# Saved with " ++ toString errors ++
    " errors, please review before using, autorename disabled") ++ [newline]

/-- `sprintf(nambuf, "%s.auto", file)` -/
def autoName (file : CString) : CString := file ++ .ofChars ".auto".toList

/-- `dconf_write`: the files it leaves and what it returns. -/
def dconfWrite (env : WriteEnv) (cp : Dict) (file : CString) (files : Files) :
    Option (Files × ℤ) :=
  let nambuf := autoName file
  if !env.opens then some (files, 0)
  else
    let files := Function.update files nambuf (some [])
    if env.errno ≠ 0 then some (files, 0)
    else
      let header := fprintf env.ok .empty (headerLine env.ctime)
      let errors : ℤ := if header.2 < 0 then 1 else 0
      let general := fprintf env.ok header.1 sectionHeader
      let errors := if general.2 < 0 then errors + 1 else errors
      match dictDump cp env.past env.ok cp.dumpFuel env.cur general.1 with
      | none => none
      | some (out, dumped) =>
        -- the number of lines that failed is never negative
        let errors := if dumped < 0 then errors + 1 else errors
        let out := if errors > 0 then (fprintf env.ok out (errorLine errors)).1 else out
        let text := out.written.take (out.written.length - env.lost)
        let files := Function.update files nambuf (some text)
        if errors = 0 then
          -- `unlink(file)` and `rename(nambuf, file)`
          let files := Function.update files file none
          some (Function.update (Function.update files file (files nambuf)) nambuf none, 1)
        else some (files, 1)

def savedText (t : CTime) (d : Dict) : List UInt8 :=
  headerLine t ++ sectionHeader ++ d.entries.flatMap fun e => entryLine e.1 e.2

/-- Every header, every one of `n` lines and what `fclose` flushes is written. -/
def WriteEnv.AllWritten (env : WriteEnv) (n : ℕ) : Prop :=
  (∀ i < n + 2, env.ok i = true) ∧ env.lost = 0

/-- `dict_dump` comes back, and prints these entries. -/
def Dict.Prints (d : Dict) (env : WriteEnv) (es : List (CString × Option CString)) : Prop :=
  ∀ out, dictDump d env.past env.ok d.dumpFuel env.cur out =
    some (fprintfAll env.ok out (es.map fun e => entryLine e.1 e.2))

section Outcome

variable {env : WriteEnv} {d : Dict} {es : List (CString × Option CString)}

theorem Dict.WF.prints (h : d.WF) (hsize : d.size.toNat < 2 ^ 31) : d.Prints env d.entries :=
  h.dictDump_eq hsize env.past env.ok env.cur

theorem Dict.WF.prints_dropLast (h : d.WF) (hsize : ¬ d.size.toNat < 2 ^ 31)
    (hlast : d.LiveAhead (2 ^ 31 - 1)) : d.Prints env d.entries.dropLast := by
  have hle := h.size.le
  exact fun out => (h.dictDump_large (by omega) env.past env.ok env.cur out).1 hlast

theorem Dict.WF.exists_prints (h : d.WF)
    (hends : d.size.toNat < 2 ^ 31 ∨ d.LiveAhead (2 ^ 31 - 1)) : ∃ es, d.Prints env es := by
  by_cases hsize : d.size.toNat < 2 ^ 31
  · exact ⟨_, h.prints hsize⟩
  · exact ⟨_, h.prints_dropLast hsize (hends.resolve_left hsize)⟩

theorem autoName_ne (file : CString) : autoName file ≠ file := by
  intro h
  have hlen := congrArg CString.length h
  rw [autoName, CString.length_append] at hlen
  have h5 : (CString.ofChars ".auto".toList).length = 5 := rfl
  omega

/-- What is handed to the stream before `fclose`, when the header lines are written. -/
def handedOver (env : WriteEnv) (es : List (CString × Option CString)) : List UInt8 :=
  (fprintfAll env.ok (fprintf env.ok (fprintf env.ok .empty (headerLine env.ctime)).1
    sectionHeader).1 (es.map fun e => entryLine e.1 e.2)).1.written

theorem handedOver_eq (hok : ∀ i < es.length + 2, env.ok i = true) : handedOver env es =
    headerLine env.ctime ++ sectionHeader ++ es.flatMap fun e => entryLine e.1 e.2 := by
  have h0 : env.ok Stream.empty.calls = true := hok 0 (by omega)
  have h1 : env.ok (fprintf env.ok .empty (headerLine env.ctime)).1.calls = true := by
    rw [fprintf_calls]
    exact hok 1 (by omega)
  rw [handedOver, fprintfAll_written, fprintf_written h1, fprintf_written h0, ← List.flatMap_def]
  · rfl
  · intro i hi
    rw [List.length_map] at hi
    have hcalls : (Stream.empty.calls + 1 + 1) + i = i + 2 := by
      change 0 + 1 + 1 + i = i + 2
      omega
    rw [fprintf_calls, fprintf_calls, hcalls]
    exact hok (i + 2) (by omega)

theorem handedOver_dropLast_ne (hok : ∀ i < d.entries.length + 2, env.ok i = true)
    (hne : d.entries ≠ []) : handedOver env d.entries.dropLast ≠ savedText env.ctime d := by
  intro heq
  rw [handedOver_eq fun i hi => hok i (by rw [List.length_dropLast] at hi; omega), savedText] at heq
  have hlines := congrArg List.length (List.append_cancel_left heq)
  conv_rhs at hlines => rw [← List.dropLast_append_getLast hne]
  rw [List.flatMap_append, List.length_append, List.flatMap_singleton, entryLine,
    List.length_append, List.length_singleton] at hlines
  omega

theorem dconfWrite_of_errno (file : CString) (files : Files) (hopen : env.opens = true)
    (herrno : env.errno ≠ 0) :
    dconfWrite env d file files =
      some (Function.update files (autoName file) (some []), 0) := by
  simp [dconfWrite, hopen, herrno]

theorem dconfWrite_of_dump_none (file : CString) (files : Files) (hopen : env.opens = true)
    (herrno : env.errno = 0)
    (hdump : ∀ out, dictDump d env.past env.ok d.dumpFuel env.cur out = none) :
    dconfWrite env d file files = none := by
  simp [dconfWrite, hopen, herrno, hdump]

theorem dump_not_neg (env : WriteEnv) (es : List (CString × Option CString)) :
    ¬ (fprintfAll env.ok (fprintf env.ok (fprintf env.ok .empty (headerLine env.ctime)).1
      sectionHeader).1 (es.map fun e => entryLine e.1 e.2)).2 < 0 :=
  not_lt.mpr fprintfAll_nonneg

theorem headerLine_failed_iff (env : WriteEnv) :
    (fprintf env.ok .empty (headerLine env.ctime)).2 < 0 ↔ env.ok 0 = false := fprintf_neg_iff

theorem sectionHeader_failed_iff (env : WriteEnv) :
    (fprintf env.ok (fprintf env.ok .empty (headerLine env.ctime)).1 sectionHeader).2 < 0 ↔
      env.ok 1 = false := by
  rw [fprintf_neg_iff, fprintf_calls]
  rfl

theorem dconfWrite_of_header_failed (file : CString) (files : Files)
    (hprints : d.Prints env es) (hopen : env.opens = true) (herrno : env.errno = 0)
    (hheader : env.ok 0 = false ∨ env.ok 1 = false) : ∃ text,
      dconfWrite env d file files =
        some (Function.update files (autoName file) (some text), 1) := by
  have hpos : ¬ (if env.ok 1 = false then (if env.ok 0 = false then (1 : ℤ) else 0) + 1
      else if env.ok 0 = false then (1 : ℤ) else 0) = 0 := by
    rcases hheader with h | h <;> simp only [h, if_true] <;> split_ifs <;> omega
  unfold dconfWrite
  simp only [hopen, herrno, headerLine_failed_iff, sectionHeader_failed_iff, hprints _,
    dump_not_neg, Bool.not_true, Bool.false_eq_true, if_false, ne_eq, not_true_eq_false]
  rw [if_neg hpos, Function.update_idem]
  exact ⟨_, rfl⟩

/-- With the header lines written, the old file is replaced whatever happens to the others. -/
theorem dconfWrite_of_header_ok (file : CString) (files : Files)
    (hprints : d.Prints env es) (hopen : env.opens = true) (herrno : env.errno = 0)
    (h0 : env.ok 0 = true) (h1 : env.ok 1 = true) : ∃ files',
      dconfWrite env d file files = some (files', 1) ∧
        files' file =
          some ((handedOver env es).take ((handedOver env es).length - env.lost)) := by
  unfold dconfWrite
  simp only [hopen, herrno, headerLine_failed_iff, sectionHeader_failed_iff, h0, h1, hprints _,
    dump_not_neg, Bool.not_true, Bool.true_eq_false, Bool.false_eq_true, if_false, if_true, ne_eq,
    not_true_eq_false, gt_iff_lt, lt_self_iff_false]
  refine ⟨_, rfl, ?_⟩
  have hne := autoName_ne file
  rw [Function.update_of_ne hne.symm, Function.update_self, Function.update_of_ne hne,
    Function.update_self]
  rfl

theorem dconfWrite_of_allWritten (file : CString) (files : Files) (h : d.WF)
    (hsize : d.size.toNat < 2 ^ 31) (hopen : env.opens = true) (herrno : env.errno = 0)
    (hall : env.AllWritten d.entries.length) : ∃ files',
      dconfWrite env d file files = some (files', 1) ∧
        files' file = some (savedText env.ctime d) := by
  obtain ⟨hok, hlost⟩ := hall
  obtain ⟨files', hrun, hfile⟩ := dconfWrite_of_header_ok file files (h.prints hsize) hopen herrno
    (hok 0 (by omega)) (hok 1 (by omega))
  refine ⟨files', hrun, ?_⟩
  rw [hfile, hlost, Nat.sub_zero, List.take_length, handedOver_eq hok, savedText]

theorem dconfWrite_of_large (file : CString) (files : Files) (h : d.WF)
    (hsize : ¬ d.size.toNat < 2 ^ 31) (hopen : env.opens = true) (herrno : env.errno = 0)
    (hall : env.AllWritten d.entries.length) {files' : Files} {rc : ℤ}
    (hcall : dconfWrite env d file files = some (files', rc)) :
    files' file ≠ some (savedText env.ctime d) := by
  have hle := h.size.le
  by_cases hlast : d.LiveAhead (2 ^ 31 - 1)
  · obtain ⟨files'', hcall', hfile⟩ := dconfWrite_of_header_ok file files
      (h.prints_dropLast hsize hlast) hopen herrno (hall.1 0 (by omega)) (hall.1 1 (by omega))
    rw [hcall] at hcall'
    cases hcall'
    rw [hfile, hall.2, Nat.sub_zero, List.take_length]
    exact fun heq => handedOver_dropLast_ne hall.1 (h.entries_ne_nil hlast) (Option.some.inj heq)
  · rw [dconfWrite_of_dump_none file files hopen herrno fun out =>
      (h.dictDump_large (by omega) env.past env.ok env.cur out).2 hlast] at hcall
    cases hcall

end Outcome

/-- `dconf_write` replaces the file by the complete text when everything was written, and else
leaves it, exactly when the new file cannot be opened, or a header line fails, or `errno` was zero
on entry and everything is written, or it was not zero and something would have failed. Where it
comes to `dict_dump` the table must have less than `2 ^ 31` slots, and for a file that is left in
place at least a live last slot, so that the dump comes to an end. -/
theorem dconfWrite_replaces_iff {ops : List DictOp} {d : Dict} (hrun : Dict.Run ops d)
    (env : WriteEnv) (file : CString) :
    (∀ files, ∃ files' rc, dconfWrite env d file files = some (files', rc) ∧
      (env.opens = true ∧ env.AllWritten d.entries.length →
        files' file = some (savedText env.ctime d)) ∧
      (¬ (env.opens = true ∧ env.AllWritten d.entries.length) → files' file = files file)) ↔
    (env.opens = true →
      (env.errno = 0 → d.size.toNat < 2 ^ 31 ∨ d.LiveAhead (2 ^ 31 - 1)) ∧
      (env.ok 0 = true → env.ok 1 = true →
        (env.errno = 0 ↔ env.AllWritten d.entries.length) ∧
        (env.errno = 0 → d.size.toNat < 2 ^ 31))) := by
  have hwf := (Dict.run_wf_and_map hrun).1
  have hle := hwf.size.le
  have hauto (files : Files) (text : Option (List UInt8)) :
      Function.update files (autoName file) text file = files file :=
    Function.update_of_ne (autoName_ne file).symm ..
  constructor
  · intro h hopen
    obtain ⟨files', rc, hcall, hdone, hkept⟩ := h fun _ => none
    have hends (herrno : env.errno = 0) : d.size.toNat < 2 ^ 31 ∨ d.LiveAhead (2 ^ 31 - 1) := by
      by_contra hno
      obtain ⟨hsize, hlast⟩ := not_or.mp hno
      rw [dconfWrite_of_dump_none file _ hopen herrno fun out =>
        (hwf.dictDump_large (by omega) env.past env.ok env.cur out).2 hlast] at hcall
      cases hcall
    refine ⟨hends, fun h0 h1 => ?_⟩
    by_cases herrno : env.errno = 0
    · obtain ⟨es, hprints⟩ : ∃ es, d.Prints env es := hwf.exists_prints (hends herrno)
      obtain ⟨files'', hcall', hfile⟩ :=
        dconfWrite_of_header_ok file (fun _ => none) hprints hopen herrno h0 h1
      have hall : env.AllWritten d.entries.length := by
        by_contra hall
        rw [hcall] at hcall'
        cases hcall'
        rw [hkept fun hboth => hall hboth.2] at hfile
        cases hfile
      refine ⟨iff_of_true herrno hall, fun _ => ?_⟩
      by_contra hsize
      exact dconfWrite_of_large file _ hwf hsize hopen herrno hall hcall (hdone ⟨hopen, hall⟩)
    · refine ⟨iff_of_false herrno fun hall => ?_, fun h => absurd h herrno⟩
      rw [dconfWrite_of_errno _ _ hopen herrno] at hcall
      cases hcall
      have hfile := hdone ⟨hopen, hall⟩
      rw [hauto] at hfile
      cases hfile
  · intro hcond files
    cases hopen : env.opens with
    | false =>
      refine ⟨files, 0, ?_, by simp, fun _ => rfl⟩
      rw [dconfWrite, hopen]
      rfl
    | true =>
      obtain ⟨hends, hheaders⟩ := hcond hopen
      by_cases herrno : env.errno = 0
      · by_cases hall : env.AllWritten d.entries.length
        · have hsize := (hheaders (hall.1 0 (by omega)) (hall.1 1 (by omega))).2 herrno
          obtain ⟨files', hcall, hfile⟩ :=
            dconfWrite_of_allWritten file files hwf hsize hopen herrno hall
          exact ⟨files', 1, hcall, fun _ => hfile, fun hno => absurd ⟨rfl, hall⟩ hno⟩
        · have hheader : env.ok 0 = false ∨ env.ok 1 = false := by
            by_contra hno
            rw [not_or, Bool.not_eq_false, Bool.not_eq_false] at hno
            exact hall ((hheaders hno.1 hno.2).1.mp herrno)
          obtain ⟨es, hprints⟩ : ∃ es, d.Prints env es := hwf.exists_prints (hends herrno)
          obtain ⟨text, hcall⟩ :=
            dconfWrite_of_header_failed file files hprints hopen herrno hheader
          exact ⟨_, 1, hcall, fun hboth => absurd hboth.2 hall, fun _ => hauto files _⟩
      · refine ⟨_, 0, dconfWrite_of_errno _ _ hopen herrno, fun hboth => ?_, fun _ => hauto files _⟩
        have hok := hboth.2.1
        have hiff := (hheaders (hok 0 (by omega)) (hok 1 (by omega))).1
        exact absurd (hiff.mpr hboth.2) herrno

def epoch : CTime := ⟨.ofChars "Thu Jan  1 00:00:00 1970".toList, by decide, by decide⟩

/-- A disk that is full once the header lines are written. -/
def fullDisk : WriteEnv :=
  ⟨0, true, epoch, fun i => i < 2, 0, .zero, ⟨.null, none, 0⟩⟩

/-- A dictionary with the setting `port=80`. -/
def portOps : List DictOp := [.add (.ofChars "port".toList) (some (.ofChars "80".toList))]

theorem exists_run_portOps : ∃ d, Dict.Run portOps d ∧ d.size.toNat < 2 ^ 31 :=
  Dict.exists_run_of_eval (by decide +kernel : (Dict.eval 20 portOps).map Dict.size = some 8)

theorem dconfWrite_replaces_iff_port : ∃ d, Dict.Run portOps d ∧
    ((∀ files, ∃ files' rc, dconfWrite fullDisk d (.ofChars ['c']) files = some (files', rc) ∧
      (fullDisk.opens = true ∧ fullDisk.AllWritten d.entries.length →
        files' (.ofChars ['c']) = some (savedText fullDisk.ctime d)) ∧
      (¬ (fullDisk.opens = true ∧ fullDisk.AllWritten d.entries.length) →
        files' (.ofChars ['c']) = files (.ofChars ['c']))) ↔
    (fullDisk.opens = true →
      (fullDisk.errno = 0 → d.size.toNat < 2 ^ 31 ∨ d.LiveAhead (2 ^ 31 - 1)) ∧
      (fullDisk.ok 0 = true → fullDisk.ok 1 = true →
        (fullDisk.errno = 0 ↔ fullDisk.AllWritten d.entries.length) ∧
        (fullDisk.errno = 0 → d.size.toNat < 2 ^ 31)))) := by
  obtain ⟨d, hrun, -⟩ := exists_run_portOps
  exact ⟨d, hrun, dconfWrite_replaces_iff hrun fullDisk _⟩

/-- On the full disk the saved configuration is replaced by one without the setting. -/
theorem dconfWrite_loses_setting : ¬ ∀ (ops : List DictOp) (d : Dict), Dict.Run ops d →
    ∀ (env : WriteEnv) (file : CString) (files : Files), ∃ files' rc,
      dconfWrite env d file files = some (files', rc) ∧
      (env.opens = true ∧ env.AllWritten d.entries.length →
        files' file = some (savedText env.ctime d)) ∧
      (¬ (env.opens = true ∧ env.AllWritten d.entries.length) → files' file = files file) := by
  intro h
  obtain ⟨d, hrun, hsize⟩ := exists_run_portOps
  obtain ⟨hwf, hmap⟩ := Dict.run_wf_and_map hrun
  have hport : d.toMap (.ofChars "port".toList) = some (some (.ofChars "80".toList)) := by
    rw [hmap]
    exact mapOf_add ..
  have hlen : 0 < d.entries.length := List.length_pos_of_mem (hwf.mem_entries_iff.mpr hport)
  have hfail : ¬ fullDisk.AllWritten d.entries.length := by
    rintro ⟨hok, _⟩
    have h2 := hok 2 (by omega)
    revert h2
    decide
  obtain ⟨files', rc, hcall, _, hkept⟩ := h portOps d hrun fullDisk (.ofChars ['c']) fun _ => none
  obtain ⟨files'', hcall', hfile⟩ := dconfWrite_of_header_ok (.ofChars ['c']) (fun _ => none)
    (hwf.prints hsize) (rfl : fullDisk.opens = true) rfl rfl rfl
  rw [hcall] at hcall'
  cases hcall'
  rw [hkept fun hboth => hfail hboth.2] at hfile
  cases hfile

end JailFs
