import Depot.Toml.Reader
import Depot.Toml.Writer
import Mathlib.Tactic.Common

/-!
Written text reads back, whichever of the four ways is taken. For the ways with escapes, reading one
escape is the same on one line and over lines; over lines, what has to be shown is that no run of
quotes inside the text is taken for the closing one.
-/

namespace Depot.Toml

theorem charOf?_toNat (c : Char) : charOf? c.toNat = some c := by
  have h : c.toNat.isValidChar := c.valid
  rw [charOf?, dif_pos h]
  rfl

/-- A digit is read in either case of letters. -/
theorem value?_toUpper_digit : ∀ n < 16, Hex.value? (Hex.digit n).toUpper = some n := by decide

theorem isPrintable_of_not_needsEscape {c : Char} (h : needsEscape c = false) (hline : c ≠ '\n') :
    isPrintable c = true := by
  simp only [needsEscape, isPrintable, ne_eq, decide_not, Bool.and_eq_false_iff,
    Bool.not_eq_false', decide_eq_true_eq, Bool.or_eq_false_iff, decide_eq_false_iff_not,
    Bool.or_eq_true, Bool.and_eq_true, Bool.not_eq_true', decide_eq_false_iff_not] at h ⊢
  grind

theorem lt_of_needsEscape {c : Char} (h : needsEscape c = true) : c.toNat < 65536 := by
  simp only [needsEscape, Bool.and_eq_true, Bool.or_eq_true, decide_eq_true_eq] at h
  omega

/-! ### Escapes -/

/-- A reader of basic text, with what both of them do with an escape and with a plain character. -/
structure ReadsBasic (read : Escape → List Char → Read) : Prop where
  backslash (rest : List Char) : read .none ('\\' :: rest) = read .backslash rest
  letter {c e : Char} (h : escaped? c = some e) (rest : List Char) :
    read .backslash (c :: rest) = consRead e (read .none rest)
  number (rest : List Char) : read .backslash ('u' :: rest) = read (.number 3 0) rest
  digit (missing value : Nat) (c : Char) (rest : List Char) :
    read (.number missing value) (c :: rest) =
      digitRead missing value c fun state => read state rest
  plain {c : Char} (h : isPrintable c) (hquote : c ≠ '"') (hbackslash : c ≠ '\\')
    (rest : List Char) : read .none (c :: rest) = consRead c (read .none rest)

namespace ReadsBasic

variable {read : Escape → List Char → Read}

theorem numbered (hread : ReadsBasic read) {c : Char} (h : c.toNat < 65536) (rest : List Char) :
    read .none (Toml.numbered c ++ rest) = consRead c (read .none rest) := by
  have hdigit (unit : Nat) : Hex.value? (Hex.digit (c.toNat / unit % 16)).toUpper =
      some (c.toNat / unit % 16) := value?_toUpper_digit _ (Nat.mod_lt _ (by decide))
  have hsum : (((0 * 16 + c.toNat / 4096 % 16) * 16 + c.toNat / 256 % 16) * 16 +
      c.toNat / 16 % 16) * 16 + c.toNat / 1 % 16 = c.toNat := by omega
  simp only [Toml.numbered, List.map_cons, List.map_nil, List.cons_append, List.nil_append,
    hread.backslash, hread.number, hread.digit, digitRead, hdigit, hsum, charOf?_toNat]

/-- What stands for a character is read as that character. Only over lines a line feed stands for
itself. -/
theorem escapedChar (hread : ReadsBasic read) {isLong : Bool}
    (hline : isLong = true → ∀ rest, read .none ('\n' :: rest) = consRead '\n' (read .none rest))
    {c : Char} (hc : c ≠ '"') (rest : List Char) :
    read .none (Toml.escapedChar isLong c ++ rest) = consRead c (read .none rest) := by
  have hletter {a e : Char} (h : escaped? a = some e) :
      read .none ('\\' :: a :: rest) = consRead e (read .none rest) := by
    rw [hread.backslash, hread.letter h]
  rw [Toml.escapedChar]
  split_ifs with h1 h2 h3 h3' h4 h5 h6 h7
  · exact h1 ▸ hletter rfl
  · exact h2 ▸ hletter rfl
  · exact h3 ▸ hline h3' rest
  · exact h3 ▸ hletter rfl
  · exact h4 ▸ hletter rfl
  · exact h5 ▸ hletter rfl
  · subst h6
    exact hletter rfl
  · exact hread.numbered (lt_of_needsEscape h7) rest
  · exact hread.plain (isPrintable_of_not_needsEscape (by simpa using h7) h3) hc h6 rest

end ReadsBasic

theorem basicText_reads : ReadsBasic basicText where
  backslash _ := by simp [basicText]
  letter {c e} h rest := by
    have hu : c ≠ 'u' := by rintro rfl; cases h
    have hU : c ≠ 'U' := by rintro rfl; cases h
    simp [basicText, hu, hU, h]
  number _ := by simp [basicText]
  digit _ _ _ _ := by rw [basicText]
  plain h hquote hbackslash rest := by simp [basicText, h, hquote, hbackslash]

/-- Text on one line reads back up to its quote. -/
theorem basicText_escapedText (cs rest : List Char) (run : Nat) :
    basicText .none (escapedText false run cs ++ '"' :: rest) = some (cs, rest) := by
  induction cs generalizing run with
  | nil => simp [escapedText_nil, basicText]
  | cons c cs ih =>
    rw [escapedText]
    by_cases hc : c = '"'
    · rw [if_pos hc, if_neg (by simp), List.cons_append, List.cons_append,
        basicText_reads.backslash, basicText_reads.letter rfl, ih, hc]
      rfl
    · rw [if_neg hc, List.append_assoc, basicText_reads.escapedChar (by simp) hc, ih]
      rfl

/-! ### Closing quotes -/

section closing

variable {quote : Char} {rest : List Char}

theorem closing?_three (h : rest.head? ≠ some quote) :
    closing? quote (quote :: quote :: quote :: rest) = some ([], rest) := by
  match rest with
  | [] => simp [closing?]
  | [d] => simp [closing?, show d ≠ quote by simpa using h]
  | d :: e :: rest => simp [closing?, show d ≠ quote by simpa using h]

theorem closing?_four (h : rest.head? ≠ some quote) :
    closing? quote (quote :: quote :: quote :: quote :: rest) = some ([quote], rest) := by
  match rest with
  | [] => simp [closing?]
  | e :: rest => simp [closing?, show e ≠ quote by simpa using h]

theorem closing?_of_second {a b : Char} (h : b ≠ quote) : closing? quote (a :: b :: rest) = none := by
  match rest with
  | [] => simp [closing?]
  | [_] => simp [closing?, h]
  | [_, _] => simp [closing?, h]
  | _ :: _ :: _ :: _ => simp [closing?, h]

theorem closing?_of_third {a b c : Char} (h : c ≠ quote) :
    closing? quote (a :: b :: c :: rest) = none := by
  match rest with
  | [] => simp [closing?, h]
  | [_] => simp [closing?, h]
  | _ :: _ :: _ => simp [closing?, h]

/-- A quote in a text, and no two of them after it, ends the text only together with the closing
quotes. -/
theorem closing?_cons {body : List Char} (h : rest.head? ≠ some quote)
    (hbody : ¬ [quote, quote] <+: body) :
    closing? quote (quote :: (body ++ quote :: quote :: quote :: rest)) = none ∨
      (body = [] ∨ body = [quote]) ∧
      closing? quote (quote :: (body ++ quote :: quote :: quote :: rest)) =
        some (quote :: body, rest) := by
  match body with
  | [] => exact .inr ⟨.inl rfl, closing?_four h⟩
  | [b] =>
    by_cases hb : b = quote
    · exact .inr ⟨.inr (by rw [hb]), by rw [hb]; exact closing?_five quote rest⟩
    · exact .inl (closing?_of_second hb)
  | b :: c :: body =>
    by_cases hb : b = quote
    · exact .inl (closing?_of_third fun hc => hbody ⟨body, by rw [hb, hc]; rfl⟩)
    · exact .inl (closing?_of_second hb)

end closing

/-! ### Text over lines -/

theorem longText_reads : ReadsBasic longText where
  backslash _ := by simp [longText_cons]
  letter {c e} h rest := by
    have hu : c ≠ 'u' := by rintro rfl; cases h
    have hU : c ≠ 'U' := by rintro rfl; cases h
    have hline : c ≠ '\n' := by rintro rfl; cases h
    have hreturn : c ≠ '\r' := by rintro rfl; cases h
    have hspace : isSpace c = false := by
      by_contra hs
      simp only [isSpace, Bool.not_eq_false, Bool.or_eq_true, decide_eq_true_eq] at hs
      obtain rfl | rfl := hs <;> cases h
    rw [longText]
    · simp [hu, hU, h, hspace]
    all_goals simp [hline, hreturn]
  number _ := by simp [longText]
  digit _ _ _ _ := by rw [longText]
  plain {c} h hquote hbackslash rest := by
    have hline : c ≠ '\n' := by rintro rfl; cases h
    have hreturn : c ≠ '\r' := by rintro rfl; cases h
    simp [longText_cons, h, hquote, hbackslash, hline, hreturn]

theorem head_escapedChar (isLong : Bool) {c : Char} (hc : c ≠ '"') (cs : List Char) :
    ¬ ['"'] <+: escapedChar isLong c ++ cs := by
  rw [escapedChar]
  split_ifs <;> simp_all [numbered, Ne.symm]

/-- After a quote that needs no escape there is room for one more. -/
theorem not_prefix_escapedText (cs : List Char) {run : Nat} (h : 0 < run) :
    ¬ ['"', '"'] <+: escapedText true run cs := by
  match cs with
  | [] => simp [escapedText_nil]
  | c :: cs =>
    rw [escapedText]
    by_cases hc : c = '"'
    · rw [if_pos hc]
      split_ifs with hrun
      · match cs with
        | [] => simp [escapedText_nil]
        | d :: cs =>
          rw [escapedText, if_neg (show ¬(true = true ∧ run + 1 < 2) by omega)]
          by_cases hd : d = '"'
          · simp [hd]
          · rw [if_neg hd]
            have := head_escapedChar true hd (escapedText true 0 cs)
            simpa using this
      · simp
    · rw [if_neg hc]
      exact fun h => head_escapedChar true hc _ ((List.prefix_append ['"'] ['"']).trans h)

theorem escapedChar_ne_nil (isLong : Bool) (c : Char) : escapedChar isLong c ≠ [] := by
  rw [escapedChar]
  split_ifs <;> simp [numbered]

theorem escapedText_ne_nil {isLong : Bool} {run : Nat} {c : Char} {cs : List Char} :
    escapedText isLong run (c :: cs) ≠ [] := by
  rw [escapedText]
  split_ifs <;> simp [escapedChar_ne_nil]

/-- A single quote comes from a single quote. -/
theorem escapedText_eq_self {cs : List Char} {run : Nat}
    (h : escapedText true run cs = [] ∨ escapedText true run cs = ['"']) :
    escapedText true run cs = cs := by
  match cs with
  | [] => rfl
  | c :: cs =>
    have hone := h.resolve_left escapedText_ne_nil
    rw [escapedText] at hone
    by_cases hc : c = '"'
    · rw [if_pos hc] at hone
      split_ifs at hone with hrun
      · cases cs with
        | nil => rw [escapedText, if_pos hc, if_pos hrun, hc]; rfl
        | cons d cs => exact absurd (List.cons.inj hone).2 escapedText_ne_nil
      · simp at hone
    · rw [if_neg hc] at hone
      have hhead := head_escapedChar true hc (escapedText true 0 cs)
      rw [hone] at hhead
      exact absurd List.prefix_rfl hhead

theorem longText_escapedText {rest : List Char} (h : rest.head? ≠ some '"') (cs : List Char)
    (run : Nat) :
    longText .none (escapedText true run cs ++ '"' :: '"' :: '"' :: rest) = some (cs, rest) := by
  induction cs generalizing run with
  | nil => simp [escapedText_nil, longText_cons, closing?_three h]
  | cons c cs ih =>
    rw [escapedText]
    by_cases hc : c = '"'
    · subst hc
      rw [if_pos rfl]
      split_ifs with hrun
      · rw [List.cons_append, longText_cons (by decide), if_neg (by decide), if_neg (by decide),
          if_pos rfl]
        obtain hnone | ⟨hbody, hsome⟩ :=
          closing?_cons h (not_prefix_escapedText cs (Nat.succ_pos run))
        · rw [hnone, ih]
          rfl
        · rw [hsome, escapedText_eq_self hbody, Option.some_or]
      · rw [List.cons_append, List.cons_append, longText_reads.backslash,
          longText_reads.letter rfl, ih]
        rfl
    · have hline (rest : List Char) :
          longText .none ('\n' :: rest) = consRead '\n' (longText .none rest) := by
        simp [longText_cons]
      rw [if_neg hc, List.append_assoc, longText_reads.escapedChar (fun _ => hline) hc, ih]
      rfl

/-! ### Literal text -/

theorem literalText_append {cs : List Char} (h : ∀ c ∈ cs, isPrintable c = true ∧ c ≠ '\'')
    (rest : List Char) : literalText (cs ++ '\'' :: rest) = some (cs, rest) := by
  induction cs with
  | nil => simp [literalText]
  | cons c cs ih =>
    obtain ⟨hc, hcs⟩ := List.forall_mem_cons.mp h
    rw [List.cons_append, literalText, if_neg hc.2, if_pos hc.1, ih hcs]
    rfl

theorem longLiteral_cons {c : Char} (h : c ≠ '\r') (rest : List Char) :
    longLiteral (c :: rest) =
      if c = '\'' then (closing? '\'' (c :: rest)).or (consRead c (longLiteral rest))
      else if c = '\n' ∨ isPrintable c then consRead c (longLiteral rest)
      else none := by
  rw [longLiteral]
  · cases closing? '\'' (c :: rest) <;> rfl
  · simp [h]

theorem le_longestRun (c : Char) (run : Nat) (cs : List Char) : run ≤ longestRun c run cs := by
  induction cs generalizing run with
  | nil => exact Nat.le_refl _
  | cons d cs ih =>
    rw [longestRun]
    split_ifs
    · exact Nat.le_trans (Nat.le_succ run) (ih (run + 1))
    · exact Nat.le_max_left _ _

theorem notMem_of_longestRun {c : Char} {cs : List Char} (h : longestRun c 0 cs = 0) : c ∉ cs := by
  induction cs with
  | nil => exact List.not_mem_nil
  | cons d cs ih =>
    rw [longestRun] at h
    by_cases hd : d = c
    · rw [if_pos hd] at h
      have := le_longestRun c (0 + 1) cs
      omega
    · rw [if_neg hd] at h
      exact List.not_mem_cons_of_ne_of_not_mem (Ne.symm hd) (ih (by omega))

theorem longLiteral_append {cs rest : List Char} (h : rest.head? ≠ some '\'')
    (hcs : ∀ c ∈ cs, c = '\n' ∨ isPrintable c = true) {run : Nat}
    (hrun : longestRun '\'' run cs ≤ 2) :
    longLiteral (cs ++ '\'' :: '\'' :: '\'' :: rest) = some (cs, rest) := by
  induction cs generalizing run with
  | nil => simp [longLiteral_cons, closing?_three h]
  | cons c cs ih =>
    obtain ⟨hc, hrest⟩ := List.forall_mem_cons.mp hcs
    have hreturn : c ≠ '\r' := by rintro rfl; simp [isPrintable] at hc
    rw [longestRun] at hrun
    rw [List.cons_append, longLiteral_cons hreturn]
    by_cases hquote : c = '\''
    · subst hquote
      rw [if_pos rfl] at hrun ⊢
      have hnext : ¬ ['\'', '\''] <+: cs := by
        rintro ⟨more, rfl⟩
        have := le_longestRun '\'' (run + 1 + 1 + 1) more
        simp [longestRun] at hrun
        omega
      obtain hnone | ⟨-, hsome⟩ := closing?_cons h hnext
      · rw [hnone, ih hrest hrun]
        rfl
      · rw [hsome, Option.some_or]
    · rw [if_neg hquote] at hrun
      rw [if_neg hquote, if_pos hc, ih hrest (Nat.le_trans (Nat.le_max_right _ _) hrun)]
      rfl

/-! ### Any text -/

/-- Text over lines starts after the line end behind its opening quotes. -/
theorem afterOpening_opening {cs body : List Char}
    (h : '\n' ∉ cs → ∀ c ∈ body.head?, c ≠ '\n' ∧ c ≠ '\r') :
    afterOpening (opening cs ++ body) = body := by
  rw [opening]
  split_ifs with hline
  · rfl
  · cases body with
    | nil => rfl
    | cons c body =>
      obtain ⟨hc, hc'⟩ := h hline c rfl
      rw [List.nil_append, afterOpening, newline?]
      · rfl
      all_goals simp [hc, hc']

theorem head_escapedText {isLong : Bool} {run : Nat} {cs rest : List Char} (hline : '\n' ∉ cs) :
    ∀ c ∈ (escapedText isLong run cs ++ '"' :: rest).head?, c ≠ '\n' ∧ c ≠ '\r' := by
  cases cs with
  | nil => simp [escapedText_nil]
  | cons d cs =>
    have hd : d ≠ '\n' := fun h => hline (by simp [h])
    rw [escapedText]
    split_ifs with h h'
    · simp
    · simp
    · rw [escapedChar]
      split_ifs <;> simp_all [numbered]

section written

variable {cs rest : List Char}

theorem text_basic (h : rest.head? ≠ some '"') (cs : List Char) :
    text (written .basic cs ++ rest) = some (cs, rest) := by
  have hread := basicText_escapedText cs rest 0
  simp only [written, List.append_assoc, List.cons_append, List.nil_append]
  cases cs with
  | nil =>
    cases rest with
    | nil => rfl
    | cons d rest =>
      rw [escapedText_nil, List.nil_append, text]
      · exact hread
      · simp_all
  | cons c cs =>
    have hhead : ¬ ['"'] <+: escapedText false 0 (c :: cs) ++ '"' :: rest := by
      rw [escapedText]
      by_cases hc : c = '"'
      · simp [hc]
      · rw [if_neg hc, List.append_assoc]
        exact head_escapedChar false hc _
    cases hbody : escapedText false 0 (c :: cs) ++ '"' :: rest with
    | nil => simp at hbody
    | cons b body =>
      rw [hbody] at hread hhead
      rw [text_of_second (by rintro rfl; simp at hhead), hread]

theorem text_longBasic (h : rest.head? ≠ some '"') (cs : List Char) :
    text (written .longBasic cs ++ rest) = some (cs, rest) := by
  simp only [written, List.append_assoc, List.cons_append, List.nil_append]
  rw [text, afterOpening_opening head_escapedText, longText_escapedText h]

theorem text_literal (hcs : ∀ c ∈ cs, isPrintable c = true ∧ c ≠ '\'') (hne : cs ≠ []) :
    text (written .literal cs ++ rest) = some (cs, rest) := by
  obtain ⟨c, cs, rfl⟩ := List.exists_cons_of_ne_nil hne
  have hc : c ≠ '\'' := (hcs c (by simp)).2
  simp only [written, List.append_assoc, List.cons_append, List.nil_append]
  rw [text, ← List.cons_append, literalText_append hcs]
  simp [hc]

theorem text_longLiteral (h : rest.head? ≠ some '\'')
    (hcs : ∀ c ∈ cs, c = '\n' ∨ isPrintable c = true) (hrun : longestRun '\'' 0 cs ≤ 2) :
    text (written .longLiteral cs ++ rest) = some (cs, rest) := by
  have hhead (hline : '\n' ∉ cs) :
      ∀ c ∈ (cs ++ '\'' :: '\'' :: '\'' :: rest).head?, c ≠ '\n' ∧ c ≠ '\r' := by
    cases cs with
    | nil => simp
    | cons c cs =>
      simp only [List.cons_append, List.head?_cons, Option.mem_def, Option.some.injEq,
        forall_eq']
      have hc : isPrintable c = true :=
        (hcs c (by simp)).resolve_left fun h => hline (by simp [h])
      constructor <;> rintro rfl <;> cases hc
  simp only [written, List.append_assoc, List.cons_append, List.nil_append]
  rw [text, afterOpening_opening hhead, longLiteral_append h hcs hrun]

end written

theorem isPrintable_of_any {cs : List Char} (h : cs.any needsEscape = false) :
    ∀ c ∈ cs, c = '\n' ∨ isPrintable c = true := by
  intro c hc
  by_cases hline : c = '\n'
  · exact .inl hline
  · exact .inr (isPrintable_of_not_needsEscape (by simpa using List.any_eq_false.mp h c hc) hline)

/-- Written text reads back, if no more quotes follow it. -/
theorem text_quoted (cs rest : List Char) (hdouble : rest.head? ≠ some '"')
    (hsingle : rest.head? ≠ some '\'') : text (quoted cs ++ rest) = some (cs, rest) := by
  rw [quoted, styleOf]
  split_ifs with h1 h2 h3 h4 h5
  · exact text_basic hdouble cs
  · simp only [Bool.and_eq_true, Bool.not_eq_true', decide_eq_true_eq, decide_eq_false_iff_not]
      at h2
    obtain ⟨⟨hcodes, hrun⟩, hline⟩ := h2
    have hne : cs ≠ [] := by rintro rfl; simp [longestRun] at h1
    refine text_literal (fun c hc => ⟨?_, ?_⟩) hne
    · exact (isPrintable_of_any hcodes c hc).resolve_left fun h => hline (h ▸ hc)
    · exact fun h => notMem_of_longestRun hrun (h ▸ hc)
  · exact text_longBasic hdouble cs
  · simp only [Bool.and_eq_true, Bool.not_eq_true', decide_eq_true_eq] at h4
    exact text_longLiteral hsingle (isPrintable_of_any h4.1) h4.2
  · exact text_longBasic hdouble cs
  · exact text_basic hdouble cs

end Depot.Toml
