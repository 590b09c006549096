import JailFs.ConfValue

/-!
# When a comment can be deleted

A comment is harmless when deleting its lines from a text, wherever it stands outside another
comment, never changes what `dconf_load` builds. That is so exactly when `commentScan` accepts
the pieces in which `fgets` reads its lines: each piece is short, starts like a comment, or
lies in a block comment, and the last one leaves the parser outside comments. A tab in front of
the opener, the rest of an over-long line, and a block comment closed on its own line fail.
-/

namespace JailFs

open Transducer Stdio

def isBlank (c : UInt8) : Bool := c = 32 || c = 9

/-- A comment with its opener first on its line: a line comment, a block comment that ends on the
line it starts on, or one whose `*/` begins a later line. -/
inductive ConfComment
  | line (indent opener body : List UInt8) (blank : ∀ c ∈ indent, isBlank c)
      (isOpener : opener ∈ [[59], [35], [47, 47]]) (oneLine : newline ∉ body)
  | block (indent body rest : List UInt8) (blank : ∀ c ∈ indent, isBlank c)
      (open' : ¬ [42, 47] <:+: body) (oneLine : newline ∉ body) (blankRest : ∀ c ∈ rest, isBlank c)
  | blockLines (indent body indent' rest : List UInt8) (blank : ∀ c ∈ indent, isBlank c)
      (open' : ¬ [42, 47] <:+: body) (blank' : ∀ c ∈ indent', isBlank c) (oneLine : newline ∉ rest)

/-- The lines that the comment occupies, without the newline that ends the last one. -/
def ConfComment.bytes : ConfComment → List UInt8
  | line indent opener body .. => indent ++ opener ++ body
  | block indent body rest .. => indent ++ [47, 42] ++ body ++ [42, 47] ++ rest
  | blockLines indent body indent' rest .. =>
    indent ++ [47, 42] ++ body ++ [newline] ++ indent' ++ [42, 47] ++ rest

/-- What a piece does to the flag `in_comment` if it does nothing else. -/
def commentStep (inComment : Bool) (buf : List UInt8) : Option Bool :=
  match lineKind (confSkip buf) with
  | .short => some inComment
  | .close => some false
  | .remark => some inComment
  | .opening => some true
  | .text => if inComment then some true else none

def commentScan (inComment : Bool) (bufs : List (List UInt8)) : Option Bool :=
  bufs.foldlM commentStep inComment

/-- Every piece of these lines is passed over, and the last one leaves the parser outside
comments. -/
def PassedOver (lines : List UInt8) : Prop :=
  commentScan false (pieces CONF_ROOM (lines ++ [newline])) = some false

instance (lines : List UInt8) : Decidable (PassedOver lines) :=
  inferInstanceAs (Decidable (_ = _))

/-- The parser is outside comments after this text. -/
def EndsOutside (pre : List UInt8) : Prop :=
  (final confLine .init (pieces CONF_ROOM pre)).inComment = false

/-- `dconf_load` builds the same maps from both texts, and from one as soon as from the other. -/
def BuildsSame (text text' : List UInt8) : Prop :=
  ∀ m, (∃ d, Loads text d ∧ d.toMap = m) ↔ ∃ d, Loads text' d ∧ d.toMap = m

/-- Deleting these lines changes nothing, in any text that has them outside comments. -/
def Transparent (lines : List UInt8) : Prop :=
  ∀ pre post, WholeLines pre → EndsOutside pre →
    BuildsSame (pre ++ (lines ++ [newline]) ++ post) (pre ++ post)

section Scan

variable {σ : LoadState} {b b' : Bool} {buf lines pre post : List UInt8}
  {bufs : List (List UInt8)}

theorem commentStep_eq_none_iff :
    commentStep b buf = none ↔ lineKind (confSkip buf) = .text ∧ b = false := by
  unfold commentStep
  cases lineKind (confSkip buf) <;> cases b <;> simp

theorem confLine_of_commentStep (h : commentStep σ.inComment buf = some b) :
    (confLine σ buf).1 = { σ with inComment := b } ∧ callsOf (confLine σ buf).2 = [] := by
  by_cases htrim : OnlyTrimmed buf
  · rw [commentStep, confSkip_of_onlyTrimmed htrim] at h
    cases h
    rw [confLine_of_onlyTrimmed htrim]
    exact ⟨rfl, rfl⟩
  · rw [confLine_eq htrim]
    unfold commentStep at h
    cases hkind : lineKind (confSkip buf) with
    | text =>
      simp only [hkind] at h ⊢
      split_ifs at h with hin
      cases h
      rw [if_pos hin, ← hin]
      exact ⟨rfl, rfl⟩
    | _ =>
      simp only [hkind] at h ⊢
      cases h
      exact ⟨rfl, rfl⟩

theorem commentScan_cons :
    commentScan b (buf :: bufs) = (commentStep b buf).bind fun b => commentScan b bufs := rfl

theorem run_of_commentScan (h : commentScan σ.inComment bufs = some b) :
    final confLine σ bufs = { σ with inComment := b } ∧
      callsOf (output confLine σ bufs) = [] := by
  induction bufs generalizing σ with
  | nil =>
    cases h
    exact ⟨rfl, rfl⟩
  | cons buf bufs ih =>
    rw [commentScan_cons, Option.bind_eq_some_iff] at h
    obtain ⟨b₁, hstep, hscan⟩ := h
    obtain ⟨hline, hcalls⟩ := confLine_of_commentStep hstep
    obtain ⟨hfinal, hrest⟩ := ih (σ := { σ with inComment := b₁ }) hscan
    rw [final_cons, output_cons, callsOf_append, hcalls, hline, hfinal, hrest]
    exact ⟨rfl, rfl⟩

theorem exists_of_commentScan_none (h : commentScan b bufs = none) : ∃ bufs₁ buf bufs₂,
    bufs = bufs₁ ++ buf :: bufs₂ ∧ commentScan b bufs₁ = some false ∧
      lineKind (confSkip buf) = .text := by
  induction bufs generalizing b with
  | nil => cases h
  | cons buf bufs ih =>
    rw [commentScan_cons] at h
    cases hstep : commentStep b buf with
    | none =>
      obtain ⟨hkind, rfl⟩ := commentStep_eq_none_iff.mp hstep
      exact ⟨[], buf, bufs, rfl, rfl, hkind⟩
    | some b₁ =>
      rw [hstep] at h
      obtain ⟨bufs₁, buf', bufs₂, rfl, hscan, hkind⟩ := ih h
      exact ⟨buf :: bufs₁, buf', bufs₂, rfl, by rw [commentScan_cons, hstep]; exact hscan, hkind⟩

end Scan

section Transparency

variable {σ : LoadState} {lines pre post text text' : List UInt8} {d d' : Dict}

theorem loads_congr (h : callsOf (loadEvents (some text)) = callsOf (loadEvents (some text'))) :
    Loads text d ↔ Loads text' d := by
  have htoken : .nullToken ∈ loadEvents (some text) ↔ .nullToken ∈ loadEvents (some text') := by
    have hmem (es : List LoadEvent) : .nullToken ∈ callsOf es ↔ .nullToken ∈ es := by
      simp [callsOf]
    rw [← hmem, h, hmem]
  rw [loads_iff, loads_iff, confOps, confOps, ← addsOf_callsOf, h, addsOf_callsOf, htoken]

theorem buildsSame_of_calls
    (h : callsOf (loadEvents (some text)) = callsOf (loadEvents (some text'))) :
    BuildsSame text text' := by
  intro m
  simp only [loads_congr h]

theorem loadEvents_append (hpre : WholeLines pre) (lines post : List UInt8) :
    loadEvents (some (pre ++ (lines ++ [newline]) ++ post)) =
      output confLine .init (pieces CONF_ROOM pre ++
        pieces CONF_ROOM (lines ++ [newline]) ++ reads CONF_ROOM post) := by
  rw [loadEvents, (hpre.append (wholeLines_snoc lines)).reads_append room_pos,
    hpre.pieces_append room_pos (wholeLines_snoc lines)]

theorem transparent_of_passedOver (h : PassedOver lines) : Transparent lines := by
  intro pre post hpre hout
  have hrun := run_of_commentScan (σ := final confLine .init (pieces CONF_ROOM pre))
    (by rw [hout]; exact h)
  apply buildsSame_of_calls
  rw [loadEvents_append hpre, loadEvents, hpre.reads_append room_pos]
  simp only [output_append, final_append, callsOf_append, hrun.1, hrun.2, List.append_nil]
  rw [← hout]

theorem buildsSame_of_passedOver_last (h : PassedOver lines) (hpre : WholeLines pre)
    (hout : EndsOutside pre) : BuildsSame (pre ++ lines) pre := by
  obtain ⟨ps, last, hreads, hpieces⟩ := reads_snoc room_pos lines
  let σ := final confLine .init (pieces CONF_ROOM pre)
  have hrun := run_of_commentScan (σ := σ) (by rw [hout]; exact h)
  rw [hpieces, output_append, output_cons, confLine_line] at hrun
  have hlines : callsOf (output confLine σ (reads CONF_ROOM lines)) = [] := by
    rw [hreads, output_append]
    exact hrun.2
  have hempty : callsOf (output confLine σ [[]]) = [] := by
    rw [output_cons, confLine_nil]
    rfl
  apply buildsSame_of_calls
  rw [loadEvents, loadEvents, hpre.reads_append room_pos, hpre.reads_eq room_pos, output_append,
    output_append, callsOf_append, callsOf_append, hlines, hempty]

/-- Two contexts in which transparent lines lead to the same operations build the same map
without them. -/
theorem Transparent.map_eq (h : Transparent lines) {pre' post' : List UInt8}
    (hpre : WholeLines pre) (hout : EndsOutside pre) (hpre' : WholeLines pre')
    (hout' : EndsOutside pre') (hd : Loads (pre ++ post) d) (hd' : Loads (pre' ++ post') d')
    (hops : confOps (pre ++ (lines ++ [newline]) ++ post) =
      confOps (pre' ++ (lines ++ [newline]) ++ post')) : d.toMap = d'.toMap := by
  obtain ⟨d₁, hload₁, hmap₁⟩ := (h pre post hpre hout d.toMap).mpr ⟨d, hd, rfl⟩
  obtain ⟨d₂, hload₂, hmap₂⟩ := (h pre' post' hpre' hout' d'.toMap).mpr ⟨d', hd', rfl⟩
  rw [← hmap₁, ← hmap₂, hload₁.wf_and_map.2, hload₂.wf_and_map.2, hops]

theorem confOps_append (hpre : WholeLines pre) (lines post : List UInt8) :
    confOps (pre ++ (lines ++ [newline]) ++ post) =
      addsOf (output confLine .init (pieces CONF_ROOM pre)) ++
      (addsOf (output confLine (final confLine .init (pieces CONF_ROOM pre))
        (pieces CONF_ROOM (lines ++ [newline]))) ++
      addsOf (output confLine (final confLine (final confLine .init (pieces CONF_ROOM pre))
        (pieces CONF_ROOM (lines ++ [newline]))) (reads CONF_ROOM post))) := by
  rw [confOps, loadEvents_append hpre, output_append, output_append, final_append]
  simp only [addsOf, List.filterMap_append, List.append_assoc]

def generalHeader : List UInt8 := bytesOf "[general]" ++ [newline]

def languageHeader : List UInt8 := bytesOf "[language]" ++ [newline]

theorem wholeLines_generalHeader : WholeLines generalHeader := wholeLines_snoc _

theorem wholeLines_languageHeader : WholeLines languageHeader := wholeLines_snoc _

theorem final_generalHeader : final confLine .init (pieces CONF_ROOM generalHeader) =
    ⟨some generalName, false⟩ := rfl

theorem final_languageHeader : final confLine .init (pieces CONF_ROOM languageHeader) =
    ⟨some languageName, false⟩ := rfl

theorem output_generalHeader : output confLine .init (pieces CONF_ROOM generalHeader) = [] := rfl

theorem endsOutside_nil : EndsOutside [] := by
  rw [EndsOutside, pieces_nil room_pos]
  rfl

theorem endsOutside_generalHeader : EndsOutside generalHeader := by
  rw [EndsOutside, final_generalHeader]

theorem endsOutside_languageHeader : EndsOutside languageHeader := by
  rw [EndsOutside, final_languageHeader]

theorem exists_loads_empty {text : List UInt8} (hes : callsOf (loadEvents (some text)) = []) :
    ∃ d, Loads text d ∧ d.toMap = fun _ => none := by
  have hops : addsOf (loadEvents (some text)) = [] := by
    rw [← addsOf_callsOf, hes]
    rfl
  have htoken : .nullToken ∉ loadEvents (some text) := by
    intro h
    have hcall : .nullToken ∈ callsOf (loadEvents (some text)) := List.mem_filter.mpr ⟨h, by simp⟩
    rw [hes] at hcall
    cases hcall
  obtain ⟨d, hload, hmap⟩ := exists_loads rfl htoken (by rw [hops]; exact Nat.two_pow_pos 30)
  rw [hops] at hmap
  exact ⟨d, hload, hmap⟩

end Transparency

section Observed

variable {σ : LoadState} {lines pre post buf : List UInt8} {bufs₁ bufs₂ : List (List UInt8)}
  {key : CString} {ops : List DictOp}

/-- After a line that sets the section, it does not matter which section was open before. -/
theorem run_of_reset {sect : Option CString} (bufs₂ : List (List UInt8))
    (hscan : commentScan false bufs₁ = some false) (hkind : lineKind (confSkip buf) = .text)
    (hset : ∀ σ, textLine σ (confSkip buf) = (⟨sect, σ.inComment⟩, []))
    (hσ : σ.inComment = false) :
    final confLine σ (bufs₁ ++ buf :: bufs₂) = final confLine ⟨sect, false⟩ bufs₂ ∧
      addsOf (output confLine σ (bufs₁ ++ buf :: bufs₂)) =
        addsOf (output confLine ⟨sect, false⟩ bufs₂) := by
  obtain ⟨hfinal, hcalls⟩ := run_of_commentScan (by rw [hσ]; exact hscan)
  have hline : confLine ⟨σ.sect, false⟩ buf = (⟨sect, false⟩, []) := by
    rw [confLine_eq (not_onlyTrimmed_of_text hkind), hkind]
    exact hset _
  rw [final_append, output_append, hfinal, final_cons, output_cons, hline, ← addsOf_callsOf,
    callsOf_append, hcalls, List.nil_append, addsOf_callsOf]
  exact ⟨rfl, rfl⟩

theorem mem_loadEvents_of_piece {e : LoadEvent} (post : List UInt8) (hpre : WholeLines pre)
    (hsplit : pieces CONF_ROOM (lines ++ [newline]) = bufs₁ ++ buf :: bufs₂)
    (hscan : commentScan false bufs₁ = some false) (hkind : lineKind (confSkip buf) = .text)
    {sect : Option CString} (hσ : final confLine .init (pieces CONF_ROOM pre) = ⟨sect, false⟩)
    (he : e ∈ (textLine ⟨sect, false⟩ (confSkip buf)).2) :
    e ∈ loadEvents (some (pre ++ (lines ++ [newline]) ++ post)) := by
  rw [loadEvents_append hpre, mem_output_iff]
  refine ⟨pieces CONF_ROOM pre ++ bufs₁, buf, bufs₂ ++ reads CONF_ROOM post, ?_, ?_⟩
  · rw [hsplit]
    simp
  · have hrun := run_of_commentScan (σ := ⟨sect, false⟩) hscan
    rw [final_append, hσ, hrun.1, confLine_eq (not_onlyTrimmed_of_text hkind), hkind]
    exact he

def keyK : CString := .ofChars ['k']

/-- `"k=1"` -/
def settingK : List UInt8 := bytesOf "k=1"

theorem exists_loads_setting :
    ∃ d, Loads (generalHeader ++ settingK) d ∧ d.toMap keyK ≠ none := by
  have hes : loadEvents (some (generalHeader ++ settingK)) =
      [.dictAdd (some keyK) (some (.ofChars ['1']))] := rfl
  obtain ⟨d, hload, hmap⟩ := exists_loads hes (by simp) (by decide)
  refine ⟨d, hload, ?_⟩
  rw [hmap]
  exact mapOf_ne_none_of_add adds_of_addsOf List.mem_cons_self

theorem not_transparent_of_reset {sect : Option CString}
    (hsplit : pieces CONF_ROOM (lines ++ [newline]) = bufs₁ ++ buf :: bufs₂)
    (hscan : commentScan false bufs₁ = some false) (hkind : lineKind (confSkip buf) = .text)
    (hset : ∀ σ, textLine σ (confSkip buf) = (⟨sect, σ.inComment⟩, [])) : ¬ Transparent lines := by
  intro h
  have hnone := run_of_reset (σ := .init) bufs₂ hscan hkind hset rfl
  have hgeneral := run_of_reset (σ := ⟨some generalName, false⟩) bufs₂ hscan hkind hset rfl
  -- outside sections the setting is ignored
  have hcalls : callsOf (loadEvents (some ([] ++ settingK))) = [] := rfl
  obtain ⟨d, hd, hmap⟩ := exists_loads_empty hcalls
  obtain ⟨d', hd', hkey⟩ := exists_loads_setting
  have heq := h.map_eq wholeLines_nil endsOutside_nil wholeLines_generalHeader
    endsOutside_generalHeader hd hd' (by
      rw [confOps_append wholeLines_nil, confOps_append wholeLines_generalHeader, hsplit,
        pieces_nil room_pos, final_generalHeader, output_generalHeader, hgeneral.1, hgeneral.2,
        final_nil, output_nil, hnone.1, hnone.2])
  rw [← heq, hmap] at hkey
  exact hkey rfl

/-- A line for the branch of its section is seen in a general section, where it adds a key, or in
a language section, where it passes a `NULL` token. -/
theorem not_transparent_of_branch
    (hsplit : pieces CONF_ROOM (lines ++ [newline]) = bufs₁ ++ buf :: bufs₂)
    (hscan : commentScan false bufs₁ = some false) (hkind : lineKind (confSkip buf) = .text)
    (hbranch : ∀ σ, textLine σ (confSkip buf) =
      (σ, (σ.sect.map fun sect => sectionLine sect (confSkip buf)).getD [])) :
    ¬ Transparent lines := by
  intro h
  cases hkey : (keyVal (confSkip buf)).1 with
  | none =>
    have hcalls : callsOf (loadEvents (some (languageHeader ++ []))) = [] := rfl
    obtain ⟨d, hd, _⟩ := exists_loads_empty hcalls
    obtain ⟨d', hd', _⟩ := (h languageHeader [] wholeLines_languageHeader
      endsOutside_languageHeader d.toMap).mpr ⟨d, hd, rfl⟩
    have htoken : .nullToken ∈ (textLine ⟨some languageName, false⟩ (confSkip buf)).2 := by
      have hlanguage : strncaseEq languageName languageName 8 = true := by decide
      rw [hbranch]
      exact nullToken_mem_sectionLine_iff.mpr ⟨hlanguage, keyVal_fst_eq_none_iff.mp hkey⟩
    exact (loads_iff.mp hd').1 (mem_loadEvents_of_piece [] wholeLines_languageHeader hsplit hscan
      hkind final_languageHeader htoken)
  | some key =>
    have hcalls : callsOf (loadEvents (some (generalHeader ++ []))) = [] := rfl
    obtain ⟨d, hd, hmap⟩ := exists_loads_empty hcalls
    obtain ⟨d', hd', hmap'⟩ := (h generalHeader [] wholeLines_generalHeader
      endsOutside_generalHeader d.toMap).mpr ⟨d, hd, rfl⟩
    have hadd : .dictAdd (some key) (keyVal (confSkip buf)).2 ∈
        (textLine ⟨some generalName, false⟩ (confSkip buf)).2 := by
      rw [hbranch, ← hkey]
      have hgeneral : strncaseEq generalName generalName 7 = true := by decide
      simp [sectionLine, hgeneral]
    have hop := mem_addsOf_iff.mpr ⟨key, _, rfl, mem_loadEvents_of_piece []
      wholeLines_generalHeader hsplit hscan hkind final_generalHeader hadd⟩
    apply mapOf_ne_none_of_add adds_of_addsOf hop
    change mapOf (confOps _) key = none
    rw [← hd'.wf_and_map.2, hmap', hmap]

theorem not_transparent_of_open
    (hscan : commentScan false (pieces CONF_ROOM (lines ++ [newline])) = some true) :
    ¬ Transparent lines := by
  intro h
  obtain ⟨hfinal, hcalls⟩ := run_of_commentScan (σ := .init) hscan
  have hempty : callsOf (loadEvents (some ([] ++ []))) = [] := rfl
  obtain ⟨d, hd, hmap⟩ := exists_loads_empty hempty
  obtain ⟨d', hd', hkey⟩ := exists_loads_setting
  have hhidden (post : List UInt8)
      (hs : callsOf (output confLine { LoadState.init with inComment := true }
        (reads CONF_ROOM post)) = []) : confOps ([] ++ (lines ++ [newline]) ++ post) = [] := by
    have hnil : addsOf [] = [] := rfl
    rw [confOps_append wholeLines_nil, pieces_nil room_pos, final_nil, output_nil, hfinal,
      ← addsOf_callsOf (output confLine .init _), hcalls, ← addsOf_callsOf (output confLine _ _),
      hs, hnil]
    rfl
  have hload : Loads ([] ++ (generalHeader ++ settingK)) d' := hd'
  have heq := h.map_eq wholeLines_nil endsOutside_nil wholeLines_nil endsOutside_nil hd hload
    (by rw [hhidden _ rfl, hhidden _ rfl])
  rw [← heq, hmap] at hkey
  exact hkey rfl

theorem transparent_iff : Transparent lines ↔ PassedOver lines := by
  constructor
  · intro h
    cases hscan : commentScan false (pieces CONF_ROOM (lines ++ [newline])) with
    | none =>
      obtain ⟨bufs₁, buf, bufs₂, hsplit, hpre, hkind⟩ := exists_of_commentScan_none hscan
      rcases textLine_cases (confSkip buf) with ⟨sect, hset⟩ | ⟨_, _, hbranch⟩
      · exact absurd h (not_transparent_of_reset hsplit hpre hkind hset)
      · exact absurd h (not_transparent_of_branch hsplit hpre hkind hbranch)
    | some b =>
      cases b with
      | false => exact hscan
      | true => exact absurd h (not_transparent_of_open hscan)
  · exact transparent_of_passedOver

end Observed

section Fitting

variable {indent start body l : List UInt8}

theorem passedOver_line_iff (hl : newline ∉ l) (hlen : l.length ≤ CONF_ROOM) :
    PassedOver l ↔ commentStep false l = some false := by
  have hstep : commentStep false (l ++ [newline]) = commentStep false l := by
    unfold commentStep confSkip
    rw [trimEnd_ofBuffer_snoc rfl]
  rcases Nat.lt_or_eq_of_le hlen with hlt | heq
  · rw [PassedOver, pieces_line hl hlt, commentScan_cons, hstep]
    cases commentStep false l <;> simp [commentScan]
  · rw [PassedOver, pieces_full_line room_pos hl heq, commentScan_cons]
    have hnl (b : Bool) : commentScan b [[newline]] = some b := rfl
    cases commentStep false l <;> simp [hnl]

theorem confSkip_start (hindent : ∀ c ∈ indent, c = 32) (hstart : start ≠ [])
    (htrim : ∀ c ∈ start, isTrimmed c = false) (hnul : 0 ∉ start) (body : List UInt8) :
    ∃ rest, (confSkip (indent ++ start ++ body)).bytes = start ++ rest := by
  have hpre : ∀ c ∈ indent ++ start, (decide (c ≠ 0)) = true := by
    intro c hc
    rw [decide_eq_true_eq]
    rintro rfl
    rcases List.mem_append.mp hc with h | h
    · exact absurd (hindent 0 h) (by decide)
    · exact hnul h
  have hkeep : (indent ++ start).rdropWhile isTrimmed = indent ++ start := by
    rw [List.rdropWhile_eq_self_iff]
    intro hne
    rw [List.getLast_append_of_right_ne_nil _ _ hstart, htrim _ (List.getLast_mem hstart)]
    exact Bool.false_ne_true
  have hdrop (rest : List UInt8) :
      (indent ++ (start ++ rest)).dropWhile (· = 32) = start ++ rest := by
    obtain ⟨c, tail, rfl⟩ := List.exists_cons_of_ne_nil hstart
    have hc : c ≠ 32 := by
      rintro rfl
      exact absurd (htrim 32 List.mem_cons_self) (by decide)
    rw [List.dropWhile_append_of_pos (by simpa using hindent), List.cons_append,
      List.dropWhile_cons_of_neg (by simpa using hc)]
  have hbytes : (confSkip (indent ++ start ++ body)).bytes =
      ((indent ++ start ++ body).takeWhile (· ≠ 0) |>.rdropWhile isTrimmed).dropWhile
        (· = 32) := rfl
  rw [hbytes, List.takeWhile_append_of_pos hpre, rdropWhile_append, hkeep]
  split_ifs with hnil
  · exact ⟨[], by simpa using hdrop []⟩
  · rw [List.append_assoc]
    exact ⟨_, hdrop _⟩

theorem lineKind_of_line {skip : CString} {rest : List UInt8}
    (hstart : start ∈ [[59], [35], [47, 47]]) (hskip : skip.bytes = start ++ rest) :
    lineKind skip = .short ∨ lineKind skip = .remark := by
  by_cases hshort : skip.length ≤ 1
  · exact Or.inl (if_pos hshort)
  · right
    simp only [List.mem_cons, List.not_mem_nil, or_false] at hstart
    rw [lineKind, if_neg hshort]
    rcases hstart with rfl | rfl | rfl <;>
      simp [isLineComment, CString.startsWith, hskip, List.isPrefixOf]

/-- A line comment that fits into the buffer is passed over, when only blanks stand before it. -/
theorem line_passedOver (hindent : ∀ c ∈ indent, c = 32)
    (hstart : start ∈ [[59], [35], [47, 47]]) (hl : newline ∉ indent ++ start ++ body)
    (hlen : (indent ++ start ++ body).length ≤ CONF_ROOM) :
    PassedOver (indent ++ start ++ body) := by
  have hopener : start ≠ [] ∧ (∀ c ∈ start, isTrimmed c = false) ∧ 0 ∉ start := by
    simp only [List.mem_cons, List.not_mem_nil, or_false] at hstart
    rcases hstart with rfl | rfl | rfl <;> simp [isTrimmed]
  obtain ⟨hne, htrim, hnul⟩ := hopener
  obtain ⟨rest, hskip⟩ := confSkip_start hindent hne htrim hnul body
  rw [passedOver_line_iff hl hlen, commentStep]
  rcases lineKind_of_line hstart hskip with hkind | hkind <;> rw [hkind]

end Fitting

/-- Deleting the lines of a comment changes nothing, whatever text stands before and after it,
exactly when the pieces in which its lines are read are all passed over and leave the parser
outside comments; a comment in the last line, without a newline, can then be deleted too. -/
theorem comment_transparent_iff (c : ConfComment) :
    (Transparent c.bytes ↔ PassedOver c.bytes) ∧
      (PassedOver c.bytes → ∀ pre, WholeLines pre → EndsOutside pre →
        BuildsSame (pre ++ c.bytes) pre) :=
  ⟨transparent_iff, fun h _ hpre hout => buildsSame_of_passedOver_last h hpre hout⟩

/-- `"/* c */"` in `"[general]\n/* c */\nk=1\n"` hides the setting after it. -/
theorem block_comment_hides_setting : ¬ ∀ c : ConfComment, Transparent c.bytes := by
  intro h
  let c : ConfComment := .block [] (bytesOf " c ") [] (by simp) (by decide) (by decide) (by simp)
  exact absurd (transparent_iff.mp (h c)) (by decide)

end JailFs
