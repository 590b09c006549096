import JailFs.TimeStrForm

/-!
# Times as text

`time_to_timestr` cuts a time into days, hours, minutes and seconds and prints those that are not
zero, each with its sign, into a static buffer of 64 bytes. What it prints is read back as the same
time.
-/

namespace JailFs

/-- `static char rbuf[64]`, with whatever the last call left there. -/
structure TimestrBuffer where
  bytes : List UInt8
  size : bytes.length = 64

namespace TimestrBuffer

/-- Bytes written from a place on, or `none` if they do not all fit. -/
def store (buf : TimestrBuffer) (pos : ℕ) (out : List UInt8) : Option TimestrBuffer :=
  if h : pos + out.length ≤ 64 then
    some ⟨buf.bytes.take pos ++ (out ++ buf.bytes.drop (pos + out.length)), by
      simp only [List.length_append, List.length_take, List.length_drop, buf.size]
      omega⟩
  else none

/-- The string that the buffer holds. -/
def string (buf : TimestrBuffer) : CString := .ofBuffer buf.bytes

def empty : TimestrBuffer := ⟨List.replicate 64 0, List.length_replicate⟩

end TimestrBuffer

/-- The digits of `printf`. -/
def decimalBytes (n : ℕ) : List UInt8 := (Nat.toDigits 10 n).map Char.toUInt8

/-- `"%d"`. -/
def formatInt (n : ℤ) : List UInt8 :=
  if n < 0 then 45 :: decimalBytes n.natAbs else decimalBytes n.natAbs

/-- `snprintf(rbuf + rlen, 64, ...)`, where `rlen` grows by the length of the whole text. -/
def snprintfTimestr (text : List UInt8) (acc : TimestrBuffer × ℕ) : Option (TimestrBuffer × ℕ) :=
  (acc.1.store acc.2 (text.take 63 ++ [0])).map fun buf => (buf, acc.2 + text.length)

/-- `if (n) rlen += snprintf(rbuf + rlen, 64, "%d" letter, n)`. -/
def printPart (letter : UInt8) (n : ℤ) (acc : TimestrBuffer × ℕ) : Option (TimestrBuffer × ℕ) :=
  if n = 0 then some acc else snprintfTimestr (formatInt n ++ [letter]) acc

def timeToTimestr (itime : ℤ) (rbuf : TimestrBuffer) : Option TimestrBuffer := do
  let d := wrapInt (itime.tdiv 86400)
  let itime := itime.tmod 86400
  let h := wrapInt (itime.tdiv 3600)
  let itime := itime.tmod 3600
  let m := wrapInt (itime.tdiv 60)
  let itime := itime.tmod 60
  let s := wrapInt itime
  let acc ← printPart 100 d (rbuf, 0)
  let acc ← printPart 104 h acc
  let acc ← printPart 109 m acc
  let (rbuf, rlen) ← printPart 115 s acc
  if rlen = 0 then rbuf.store 0 [48, 115, 0] else some rbuf

section Decimal

variable {n : ℕ}

theorem decimalBytes_of_lt (h : n < 10) : decimalBytes n = [n.digitChar.toUInt8] := by
  rw [decimalBytes, Nat.toDigits_of_lt_base h]
  rfl

theorem decimalBytes_of_le (h : 10 ≤ n) :
    decimalBytes n = decimalBytes (n / 10) ++ [(n % 10).digitChar.toUInt8] := by
  rw [decimalBytes, Nat.toDigits_of_base_le (by omega) h, List.map_append]
  rfl

theorem isDigit_digitChar : ∀ d < 10, isDigit 10 d.digitChar.toUInt8 = true := by decide

theorem digitValue_digitChar : ∀ d < 10, digitValue d.digitChar.toUInt8 = some d := by decide

theorem digitChar_toUInt8_ne : ∀ d < 10, 0 < d → d.digitChar.toUInt8 ≠ 48 := by decide

theorem decimalBytes_ne_nil (n : ℕ) : decimalBytes n ≠ [] :=
  mt List.map_eq_nil_iff.mp Nat.toDigits_ne_nil

theorem isDigit_decimalBytes (n : ℕ) : ∀ c ∈ decimalBytes n, isDigit 10 c = true := by
  induction n using Nat.strongRecOn with
  | _ n ih =>
    intro c hc
    rcases Nat.lt_or_ge n 10 with hlt | hge
    · rw [decimalBytes_of_lt hlt, List.mem_singleton] at hc
      exact hc ▸ isDigit_digitChar n hlt
    · rw [decimalBytes_of_le hge, List.mem_append, List.mem_singleton] at hc
      rcases hc with hc | rfl
      · exact ih (n / 10) (by omega) c hc
      · exact isDigit_digitChar _ (by omega)

theorem digits_decimalBytes (n : ℕ) : digits 10 (decimalBytes n) = n := by
  induction n using Nat.strongRecOn with
  | _ n ih =>
    rcases Nat.lt_or_ge n 10 with hlt | hge
    · rw [decimalBytes_of_lt hlt, digits_eq, digitsFrom_cons (isDigit_digitChar n hlt),
        digitsFrom_nil, digitValue_digitChar n hlt]
      simp
    · have hd := Nat.mod_lt n (show 0 < 10 by decide)
      have hprev : digitsFrom 10 0 (decimalBytes (n / 10)) = n / 10 := ih (n / 10) (by omega)
      rw [decimalBytes_of_le hge, digits_eq,
        digitsFrom_concat (isDigit_decimalBytes _) (isDigit_digitChar _ hd), hprev,
        digitValue_digitChar _ hd, Option.getD_some]
      omega

/-- The numeral that `printf` prints. -/
def Numeral.ofNat (n : ℕ) : Numeral where
  bytes := decimalBytes n
  nonempty := decimalBytes_ne_nil n
  decimal := isDigit_decimalBytes n

theorem Numeral.value_ofNat (n : ℕ) : (ofNat n).value = n := digits_decimalBytes n

theorem head?_decimalBytes (hn : 0 < n) : (decimalBytes n).head? ≠ some 48 := by
  induction n using Nat.strongRecOn with
  | _ n ih =>
    rcases Nat.lt_or_ge n 10 with hlt | hge
    · rw [decimalBytes_of_lt hlt, List.head?_cons]
      exact fun h => digitChar_toUInt8_ne n hlt hn (Option.some.inj h)
    · rw [decimalBytes_of_le hge, List.head?_append_of_ne_nil _ (decimalBytes_ne_nil _)]
      exact ih (n / 10) (by omega) (by omega)

theorem Numeral.plain_ofNat (n : ℕ) : (ofNat n).Plain := by
  rcases Nat.eq_zero_or_pos n with rfl | hn
  · exact .inr (by rw [value_ofNat]; decide)
  · exact .inl (head?_decimalBytes hn)

theorem Numeral.magnitude_ofNat (n : ℕ) : magnitude (decimalBytes n) = n := by
  rcases (ofNat n).magnitude_cases with ⟨h, -⟩ | ⟨-, h⟩
  · exact h.trans (value_ofNat n)
  · exact absurd (plain_ofNat n) h

theorem length_decimalBytes_le {k : ℕ} (hk : 0 < k) (h : n < 10 ^ k) :
    (decimalBytes n).length ≤ k := by
  rw [decimalBytes, List.length_map]
  exact (Nat.length_toDigits_le_iff (by decide) hk).mpr h

end Decimal

section FormatInt

variable {n : ℤ} {rest : List UInt8}

theorem strtol_formatInt (hn : FitsInt n) (hrest : Numeral.IsEnd rest) :
    strtol (formatInt n ++ rest) = n := by
  rw [formatInt]
  split_ifs with hneg
  · have hmag : magnitude (decimalBytes n.natAbs ++ rest) = n.natAbs :=
      ((Numeral.ofNat n.natAbs).magnitude_append hrest).trans (Numeral.magnitude_ofNat _)
    change max (-2 ^ 63) (-(magnitude (decimalBytes n.natAbs ++ rest) : ℤ)) = n
    rw [hmag]
    have hbounds := hn.1
    omega
  · have hread := (Numeral.ofNat n.natAbs).strtol_append hrest
    change strtol (decimalBytes n.natAbs ++ rest) =
      min (2 ^ 63 - 1) (magnitude (decimalBytes n.natAbs) : ℤ) at hread
    rw [hread, Numeral.magnitude_ofNat]
    have hbounds := hn.2
    omega

theorem length_formatInt_le (hn : FitsInt n) : (formatInt n).length ≤ 11 := by
  obtain ⟨hlo, hhi⟩ := hn
  have hlen := @length_decimalBytes_le n.natAbs 10 (by decide) (by omega)
  rw [formatInt]
  split_ifs
  · rw [List.length_cons]
    omega
  · omega

theorem mem_formatInt {c : UInt8} (h : c ∈ formatInt n) : c = 45 ∨ 48 ≤ c ∧ c ≤ 57 := by
  rw [formatInt] at h
  split_ifs at h
  · rcases List.mem_cons.mp h with rfl | h
    · exact .inl rfl
    · exact .inr (isDigit_ten_iff.mp (isDigit_decimalBytes _ c h))
  · exact .inr (isDigit_ten_iff.mp (isDigit_decimalBytes _ c h))

end FormatInt

section Print

variable {letter : UInt8} {n : ℤ} {acc : TimestrBuffer × ℕ} {text out : List UInt8}

/-- The number in front of a letter, if it is printed. -/
def printed (n : ℤ) : Option (List UInt8) := if n = 0 then none else some (formatInt n)

theorem mem_printed {c : UInt8} {p : List UInt8} (hp : p ∈ printed n) (hc : c ∈ p) :
    c = 45 ∨ 48 ≤ c ∧ c ≤ 57 := by
  rw [printed] at hp
  split_ifs at hp
  · cases hp
  · cases hp
    exact mem_formatInt hc

theorem noLetter_printed : ∀ p ∈ printed n, NoLetter p := by
  refine fun p hp => ⟨fun h => ?_, fun h => ?_, fun h => ?_⟩
  all_goals exact absurd (mem_printed hp h) (by decide)

theorem fieldTime_printed {unit : ℤ} (hn : FitsInt n) :
    fieldTime unit (printed n) = n * unit := by
  rw [printed]
  split_ifs with h
  · simp [fieldTime, h]
  · have hread := strtol_formatInt hn (.inl rfl)
    rw [List.append_nil] at hread
    rw [fieldTime, hread]

theorem mem_fieldText_printed {c : UInt8} (h : c ∈ fieldText letter (printed n)) :
    c = letter ∨ c = 45 ∨ 48 ≤ c ∧ c ≤ 57 := by
  cases hp : printed n with
  | none =>
    rw [hp] at h
    exact absurd h List.not_mem_nil
  | some p =>
    rw [hp, fieldText, List.mem_append, List.mem_singleton] at h
    exact h.symm.imp_right (mem_printed hp)

theorem length_fieldText_printed (hn : FitsInt n) :
    (fieldText letter (printed n)).length ≤ 12 := by
  have hlen := length_formatInt_le hn
  rw [printed]
  split_ifs
  · exact Nat.zero_le 12
  · rw [fieldText, List.length_append, List.length_singleton]
    omega

/-- What has been printed so far, and where the next text goes. -/
def Prints (acc : TimestrBuffer × ℕ) (text : List UInt8) : Prop :=
  acc.2 = text.length ∧ ∃ tail, acc.1.bytes = text ++ tail ∧ (text ≠ [] → tail.head? = some 0)

theorem TimestrBuffer.store_append {buf : TimestrBuffer} {tail : List UInt8} (out : List UInt8)
    (hbytes : buf.bytes = text ++ tail) (hroom : text.length + out.length ≤ 64) :
    ∃ buf', buf.store text.length out = some buf' ∧
      buf'.bytes = text ++ (out ++ tail.drop out.length) := by
  refine ⟨_, dif_pos hroom, ?_⟩
  simp only [hbytes, List.take_left', List.drop_append, List.drop_of_length_le, Nat.le_add_right,
    Nat.add_sub_cancel_left, List.nil_append]

theorem printPart_prints (letter : UInt8) (hn : FitsInt n) (hroom : text.length + 13 ≤ 64)
    (h : Prints acc text) : ∃ acc', printPart letter n acc = some acc' ∧
      Prints acc' (text ++ fieldText letter (printed n)) := by
  obtain ⟨hlen, tail, hbytes, hnul⟩ := h
  by_cases h0 : n = 0
  · refine ⟨acc, if_pos h0, ?_⟩
    rw [printed, if_pos h0, fieldText, List.append_nil]
    exact ⟨hlen, tail, hbytes, hnul⟩
  · have hpart := @length_fieldText_printed letter n hn
    rw [printed, if_neg h0, fieldText] at hpart ⊢
    set part := formatInt n ++ [letter] with hdef
    have htake : part.take 63 = part := List.take_of_length_le (by omega)
    obtain ⟨buf, hbuf, hafter⟩ := TimestrBuffer.store_append (part ++ [0]) hbytes (by
      rw [List.length_append, List.length_singleton]
      omega)
    refine ⟨(buf, acc.2 + part.length), ?_, ?_, ?_⟩
    · rw [printPart, if_neg h0, ← hdef, snprintfTimestr, htake, hlen, hbuf]
      rfl
    · exact (congrArg (· + part.length) hlen).trans List.length_append.symm
    · refine ⟨0 :: tail.drop (part ++ [0]).length, ?_, fun _ => rfl⟩
      rw [hafter]
      simp only [List.append_assoc, List.cons_append, List.nil_append]

end Print

section Parts

variable {t : ℤ} {rbuf : TimestrBuffer}

theorem exists_units (t unit : ℤ) (h : 0 < unit) :
    t = t.tdiv unit * unit + t.tmod unit ∧ -unit < t.tmod unit ∧ t.tmod unit < unit := by
  have hsplit := Int.mul_tdiv_add_tmod t unit
  rw [Int.mul_comm] at hsplit
  exact ⟨hsplit.symm, Int.lt_tmod_of_pos t h, Int.tmod_lt_of_pos t h⟩

theorem exists_parts (h : FitsInt (t.tdiv 86400)) : ∃ d h m s : ℤ,
    (FitsInt d ∧ FitsInt h ∧ FitsInt m ∧ FitsInt s) ∧ t = d * 86400 + h * 3600 + m * 60 + s ∧
    ∀ rbuf, timeToTimestr t rbuf = (do
      let acc ← printPart 100 d (rbuf, 0)
      let acc ← printPart 104 h acc
      let acc ← printPart 109 m acc
      let (rbuf, rlen) ← printPart 115 s acc
      if rlen = 0 then rbuf.store 0 [48, 115, 0] else some rbuf) := by
  obtain ⟨hd, hd₁, hd₂⟩ := exists_units t 86400 (by decide)
  obtain ⟨hh, hh₁, hh₂⟩ := exists_units (t.tmod 86400) 3600 (by decide)
  obtain ⟨hm, hm₁, hm₂⟩ := exists_units ((t.tmod 86400).tmod 3600) 60 (by decide)
  have hhours : FitsInt ((t.tmod 86400).tdiv 3600) := ⟨by omega, by omega⟩
  have hminutes : FitsInt (((t.tmod 86400).tmod 3600).tdiv 60) := ⟨by omega, by omega⟩
  have hseconds : FitsInt (((t.tmod 86400).tmod 3600).tmod 60) := ⟨by omega, by omega⟩
  refine ⟨_, _, _, _, ⟨h, hhours, hminutes, hseconds⟩, by omega, fun rbuf => ?_⟩
  simp only [timeToTimestr, h.wrapInt, hhours.wrapInt, hminutes.wrapInt, hseconds.wrapInt]

theorem printed_eq_none_of_nil {letter : UInt8} {n : ℤ} (h : fieldText letter (printed n) = []) :
    n = 0 := by
  by_contra hne
  rw [printed, if_neg hne, fieldText] at h
  exact absurd (List.append_eq_nil_iff.mp h).2 (List.cons_ne_nil _ _)

/-- The text after the minutes, which is `0s` if nothing else was printed. -/
def IsSeconds (s : ℤ) (text : List UInt8) : Prop :=
  text = fieldText 115 (printed s) ∨ text = [48, 115] ∧ s = 0

theorem strtol_isSeconds {s : ℤ} {text : List UInt8} (hs : FitsInt s) (h : IsSeconds s text) :
    strtol text = s := by
  rcases h with rfl | ⟨rfl, rfl⟩
  · rw [printed]
    split_ifs with h0
    · rw [h0]
      rfl
    · exact strtol_formatInt hs (.inr rfl)
  · decide

theorem mem_isSeconds {s : ℤ} {text : List UInt8} {c : UInt8} (h : IsSeconds s text)
    (hc : c ∈ text) : c = 115 ∨ c = 45 ∨ 48 ≤ c ∧ c ≤ 57 := by
  rcases h with rfl | ⟨rfl, -⟩
  · exact mem_fieldText_printed hc
  · fin_cases hc <;> decide

theorem timeToTimestr_bytes (h : FitsInt (t.tdiv 86400)) (rbuf : TimestrBuffer) :
    ∃ (d h m s : ℤ) (seconds tail : List UInt8) (buf : TimestrBuffer),
      (FitsInt d ∧ FitsInt h ∧ FitsInt m ∧ FitsInt s) ∧ t = d * 86400 + h * 3600 + m * 60 + s ∧
      timeToTimestr t rbuf = some buf ∧ IsSeconds s seconds ∧
      buf.bytes = fieldText 100 (printed d) ++ (fieldText 104 (printed h) ++
        (fieldText 109 (printed m) ++ seconds)) ++ 0 :: tail := by
  obtain ⟨d, h, m, s, ⟨hd, hh, hm, hs⟩, ht, hcall⟩ := exists_parts h
  have hld := @length_fieldText_printed 100 d hd
  have hlh := @length_fieldText_printed 104 h hh
  have hlm := @length_fieldText_printed 109 m hm
  obtain ⟨acc₁, h₁, hp₁⟩ := printPart_prints 100 hd (by decide)
    (show Prints (rbuf, 0) [] from ⟨rfl, rbuf.bytes, rfl, fun h => absurd rfl h⟩)
  obtain ⟨acc₂, h₂, hp₂⟩ := printPart_prints 104 hh (by
    simp only [List.nil_append]
    omega) hp₁
  obtain ⟨acc₃, h₃, hp₃⟩ := printPart_prints 109 hm (by
    simp only [List.nil_append, List.length_append]
    omega) hp₂
  obtain ⟨⟨buf, rlen⟩, h₄, hlen, tail, hbytes, hnul⟩ := printPart_prints 115 hs (by
    simp only [List.nil_append, List.length_append]
    omega) hp₃
  specialize hcall rbuf
  simp only [h₁, h₂, h₃, h₄, Option.bind_eq_bind, Option.bind_some] at hcall
  simp only [List.nil_append, List.append_assoc] at hlen hbytes hnul
  by_cases h0 : rlen = 0
  · have hnil := List.length_eq_zero_iff.mp (hlen.symm.trans h0)
    simp only [List.append_eq_nil_iff] at hnil
    obtain ⟨hd₀, hh₀, hm₀, hs₀⟩ := hnil
    rw [hd₀, hh₀, hm₀, hs₀, List.nil_append] at hbytes
    obtain ⟨buf', hstore, hafter⟩ :=
      TimestrBuffer.store_append [48, 115, 0] (List.nil_append buf.bytes).symm (by decide)
    rw [if_pos h0] at hcall
    refine ⟨d, h, m, s, [48, 115], buf.bytes.drop 3, buf', ⟨hd, hh, hm, hs⟩, ht, hcall.trans hstore,
      .inr ⟨rfl, printed_eq_none_of_nil hs₀⟩, ?_⟩
    rw [hafter, hd₀, hh₀, hm₀]
    rfl
  · have hne : fieldText 100 (printed d) ++ (fieldText 104 (printed h) ++
        (fieldText 109 (printed m) ++ fieldText 115 (printed s))) ≠ [] := by
      intro hnil
      rw [hnil] at hlen
      exact h0 hlen
    obtain ⟨rest, hrest⟩ := List.head?_eq_some_iff.mp (hnul hne)
    rw [if_neg h0] at hcall
    refine ⟨d, h, m, s, _, rest, buf, ⟨hd, hh, hm, hs⟩, ht, hcall, .inl rfl, ?_⟩
    rw [hbytes, hrest]
    simp only [List.append_assoc]

theorem printable {c letter : UInt8} (hletter : letter ≠ 0 ∧ tolower letter = letter)
    (h : c = letter ∨ c = 45 ∨ 48 ≤ c ∧ c ≤ 57) : c ≠ 0 ∧ tolower c = c := by
  rcases h with rfl | rfl | ⟨hlo, hhi⟩
  · exact hletter
  · decide
  · refine ⟨?_, tolower_of_le hhi⟩
    rintro rfl
    exact absurd hlo (by decide)

/-- Every time whose days fit into an `int` is printed inside the buffer, and its text is read as
the same time. -/
theorem timestrToTime_timeToTimestr (ht : FitsInt (t.tdiv 86400)) (rbuf : TimestrBuffer) :
    ∃ buf, timeToTimestr t rbuf = some buf ∧ buf.string.length < 64 ∧
      ∀ dflt, timestrToTime (some buf.string) dflt = t := by
  obtain ⟨d, h, m, s, seconds, tail, buf, ⟨hd, hh, hm, hs⟩, hsum, hcall, hseconds, hbytes⟩ :=
    timeToTimestr_bytes ht rbuf
  set text := fieldText 100 (printed d) ++ (fieldText 104 (printed h) ++
    (fieldText 109 (printed m) ++ seconds)) with htext
  have hchars : ∀ c ∈ text, c ≠ 0 ∧ tolower c = c := by
    intro c hc
    simp only [htext, List.mem_append] at hc
    rcases hc with hc | hc | hc | hc
    · exact printable (by decide) (mem_fieldText_printed hc)
    · exact printable (by decide) (mem_fieldText_printed hc)
    · exact printable (by decide) (mem_fieldText_printed hc)
    · exact printable (by decide) (mem_isSeconds hseconds hc)
  have hstring : buf.string.bytes = text := by
    rw [TimestrBuffer.string, hbytes]
    exact ofBuffer_eq fun h0 => (hchars 0 h0).1 rfl
  refine ⟨buf, hcall, ?_, fun dflt => ?_⟩
  · have hsize := buf.size
    rw [hbytes, List.length_append, List.length_cons] at hsize
    rw [CString.length, hstring]
    omega
  · have hlower : buf.string.bytes.map tolower = text := by
      rw [hstring, List.map_congr_left fun c hc => (hchars c hc).2, List.map_id']
    have hnoLetter : NoLetter seconds := by
      refine ⟨fun h => ?_, fun h => ?_, fun h => ?_⟩
      all_goals exact absurd (mem_isSeconds hseconds h) (by decide)
    rw [timestrToTime_fields (hlower.trans htext) noLetter_printed noLetter_printed
      noLetter_printed hnoLetter, fieldTime_printed hd, fieldTime_printed hh,
      fieldTime_printed hm, strtol_isSeconds hs hseconds, ← hsum]
    obtain ⟨hd₁, hd₂⟩ := hd
    obtain ⟨hh₁, hh₂⟩ := hh
    obtain ⟨hm₁, hm₂⟩ := hm
    obtain ⟨hs₁, hs₂⟩ := hs
    exact wrapTime_of_bounds (by omega)

/-- A day and a minute ago, printed as `-1d-1m`. -/
theorem timestrToTime_timeToTimestr_ago : FitsInt (Int.tdiv (-86460) 86400) ∧
    ∃ buf, timeToTimestr (-86460) .empty = some buf ∧ buf.string.length < 64 ∧
      ∀ dflt, timestrToTime (some buf.string) dflt = -86460 :=
  ⟨by decide, timestrToTime_timeToTimestr (by decide) .empty⟩

end Parts

end JailFs
