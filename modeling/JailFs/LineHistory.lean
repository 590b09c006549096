import JailFs.CString
import Mathlib.Data.List.Infix

/-!
# The history of the command line

`linenoiseHistoryAdd`, `linenoiseHistorySetMaxLen` and the entry that `linenoiseEdit` keeps for
the line it is editing. The entries are the strings of `history[0]` to `history[history_len - 1]`,
oldest first.
-/

namespace JailFs

/-- The default of `history_max_len` is 100 and `linenoiseHistorySetMaxLen` refuses what is below
1, so that the array has room for an entry at all times. -/
structure LineHistory where
  entries : List CString
  maxLen : ℕ
  maxLen_pos : 0 < maxLen
  length_le : entries.length ≤ maxLen

namespace LineHistory

def empty (maxLen : ℕ) (h : 0 < maxLen) : LineHistory := ⟨[], maxLen, h, Nat.zero_le _⟩

/-- `free(history[i]); history[i] = strdup(line);` -/
def set (h : LineHistory) (i : ℕ) (line : CString) : LineHistory :=
  { h with
    entries := h.entries.set i line
    length_le := by
      rw [List.length_set]
      exact h.length_le }

/-- `history_len--; free(history[history_len]);` -/
def pop (h : LineHistory) : LineHistory :=
  { h with
    entries := h.entries.dropLast
    length_le := by
      have hle := h.length_le
      rw [List.length_dropLast]
      omega }

/-- A new entry, in place of the oldest one when the array is full. -/
def push (h : LineHistory) (line : CString) : LineHistory :=
  { h with
    entries := (if h.entries.length = h.maxLen then h.entries.tail else h.entries) ++ [line]
    length_le := by
      have hle := h.length_le
      have hpos := h.maxLen_pos
      rw [List.length_append, List.length_singleton]
      split_ifs with hfull
      · rw [List.length_tail]
        omega
      · omega }

end LineHistory

/-- The history after the call; whether the line was added is not used by any caller. -/
def linenoiseHistoryAdd (h : LineHistory) (line : CString) : LineHistory :=
  if h.entries.getLast? = some line then h else h.push line

/-- The last `len` entries stay. -/
def linenoiseHistorySetMaxLen (h : LineHistory) (len : ℤ) : LineHistory :=
  if hlen : len < 1 then h
  else
    { entries := h.entries.drop (h.entries.length - len.toNat)
      maxLen := len.toNat
      maxLen_pos := by omega
      length_le := by
        rw [List.length_drop]
        omega }

variable {h : LineHistory} {line : CString} {i : ℕ}

@[simp] theorem entries_set : (h.set i line).entries = h.entries.set i line := rfl

@[simp] theorem entries_pop : h.pop.entries = h.entries.dropLast := rfl

theorem entries_push : (h.push line).entries =
    (if h.entries.length = h.maxLen then h.entries.tail else h.entries) ++ [line] := rfl

@[simp] theorem maxLen_historyAdd : (linenoiseHistoryAdd h line).maxLen = h.maxLen := by
  unfold linenoiseHistoryAdd
  split_ifs <;> rfl

theorem getLast?_historyAdd : (linenoiseHistoryAdd h line).entries.getLast? = some line := by
  unfold linenoiseHistoryAdd
  split_ifs with hdup
  · exact hdup
  · exact List.getLast?_concat

theorem historyAdd_ne_nil : (linenoiseHistoryAdd h line).entries ≠ [] := by
  intro hnil
  have hlast : (linenoiseHistoryAdd h line).entries.getLast? = some line := getLast?_historyAdd
  rw [hnil] at hlast
  cases hlast

end JailFs
