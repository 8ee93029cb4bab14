import Abacus.Proofs.Token.Lexemes

/-!
# Reading a text lexeme by lexeme

`Token.scan` cuts one lexeme after the other off a text, so what it makes of a text is what it makes
of the first lexeme and of the rest (`Token.scan_token`, `Token.scan_blanks`). Two things follow. A
text that is put together from lexemes, none of which goes on into the next, has the tokens of these
lexemes (`Scans`). And every token spells out what it is: a name is a small letter with letters and
digits behind it, and the text of a number is read as this one number again (`Token.scan_spelled`).
-/
namespace Abacus

open Lexeme Text

/-! ## One step -/

namespace Token

theorem scan_skip (place : Place) (text rest : List Char) :
    scan place text.length (text ++ rest) = scan (place.after text) 0 rest := by
  induction text generalizing place with
  | nil => rfl
  | cons c text ih => exact ih (place.next c)

section
variable {lexeme : Lexeme} {text rest : List Char} {place : Place}
  (hlexeme : lexeme? (text ++ rest) = some (lexeme, text))
include hlexeme

theorem ne_nil_of_lexeme? : text ≠ [] :=
  (Cuts.of_lexeme? hlexeme).ne_nil

theorem scan_blanks (hkind : kind? lexeme text place = .ok none) :
    scan place 0 (text ++ rest) = scan (place.after text) 0 rest := by
  obtain ⟨c, tail, rfl⟩ := List.exists_cons_of_ne_nil (ne_nil_of_lexeme? hlexeme)
  rw [List.cons_append] at hlexeme ⊢
  simp only [scan, hlexeme, hkind, List.length_cons, Nat.add_sub_cancel]
  exact scan_skip (place.next c) tail rest

theorem scan_token {kind : TokenKind} (hkind : kind? lexeme text place = .ok (some kind)) :
    scan place 0 (text ++ rest) =
      (scan (place.after text) 0 rest).map
        ({ kind, span := place.span text, offset := place.offset } :: ·) := by
  obtain ⟨c, tail, rfl⟩ := List.exists_cons_of_ne_nil (ne_nil_of_lexeme? hlexeme)
  rw [List.cons_append] at hlexeme ⊢
  have hskip : scan (place.next c) tail.length (tail ++ rest) =
      scan (place.after (c :: tail)) 0 rest :=
    scan_skip (place.next c) tail rest
  simp only [scan, hlexeme, hkind, List.length_cons, Nat.add_sub_cancel, hskip]
  cases scan (place.after (c :: tail)) 0 rest <;> rfl

theorem scan_error {e : LexError} (hkind : kind? lexeme text place = .error e) :
    scan place 0 (text ++ rest) = .error e := by
  obtain ⟨c, tail, rfl⟩ := List.exists_cons_of_ne_nil (ne_nil_of_lexeme? hlexeme)
  rw [List.cons_append] at hlexeme ⊢
  simp only [scan, hlexeme, hkind]

end

theorem scan_of_not_lexeme? {c : Char} {rest : List Char} {place : Place}
    (h : lexeme? (c :: rest) = none) :
    scan place 0 (c :: rest) = .error (.unexpectedCharacter c place) := by
  simp only [scan, h]

/-- What holds of no text, and carries over to a text with one more lexeme in front, holds of every
text that is read and the tokens that are read from it. -/
theorem scan_induct
    {motive : (place : Place) → (text : List Char) → (tokens : List Token) →
      scan place 0 text = .ok tokens → Prop}
    (nil : ∀ place, motive place [] [] rfl)
    (blanks : ∀ {place lexeme piece rest tokens h h'}, Cuts (piece ++ rest) lexeme piece →
      kind? lexeme piece place = .ok none → motive (place.after piece) rest tokens h →
        motive place (piece ++ rest) tokens h')
    (token : ∀ {place lexeme piece rest kind tokens h h'}, Cuts (piece ++ rest) lexeme piece →
      kind? lexeme piece place = .ok (some kind) → motive (place.after piece) rest tokens h →
        motive place (piece ++ rest)
          ({ kind, span := place.span piece, offset := place.offset } :: tokens) h')
    (place : Place) (text : List Char) (tokens : List Token) (h : scan place 0 text = .ok tokens) :
    motive place text tokens h := by
  generalize hn : text.length = n
  induction n using Nat.strongRecOn generalizing place text tokens with
  | _ n ih =>
    cases text with
    | nil =>
      cases h
      exact nil place
    | cons c tail =>
      cases hlexeme : lexeme? (c :: tail) with
      | none =>
        rw [scan_of_not_lexeme? hlexeme] at h
        cases h
      | some cut =>
        obtain ⟨lexeme, piece⟩ := cut
        have hcuts := Cuts.of_lexeme? hlexeme
        obtain ⟨rest, heq⟩ := hcuts.isPrefix
        have hrest : rest.length < n := by
          have hpos := List.length_pos_iff.mpr hcuts.ne_nil
          rw [← hn, ← heq, List.length_append]
          omega
        clear hn
        generalize c :: tail = text at *
        subst heq
        cases hkind : kind? lexeme piece place with
        | error e =>
          rw [scan_error hlexeme hkind] at h
          cases h
        | ok kind =>
          cases kind with
          | none =>
            have hscan := h
            rw [scan_blanks hlexeme hkind] at hscan
            exact blanks hcuts hkind (ih _ hrest _ rest tokens hscan rfl)
          | some kind =>
            have hscan := h
            rw [scan_token hlexeme hkind] at hscan
            cases hothers : scan (place.after piece) 0 rest with
            | error e =>
              rw [hothers] at hscan
              cases hscan
            | ok others =>
              rw [hothers] at hscan
              cases hscan
              exact token hcuts hkind (ih _ hrest _ rest others hothers rfl)

end Token

/-! ## Texts without blanks around them -/

/-- A text whose first and last character are no blanks. -/
structure Solid (text : List Char) : Prop where
  starts : ∃ c rest, text = c :: rest ∧ isBlank c = false
  stops : ∃ rest c, text = rest ++ [c] ∧ isBlank c = false

namespace Solid

variable {text front back : List Char}

theorem of_forall (hne : text ≠ []) (h : ∀ c ∈ text, isBlank c = false) : Solid text where
  starts := by
    obtain ⟨c, rest, rfl⟩ := List.exists_cons_of_ne_nil hne
    exact ⟨c, rest, rfl, h c List.mem_cons_self⟩
  stops := ⟨text.dropLast, text.getLast hne, (List.dropLast_concat_getLast hne).symm,
    h _ (List.getLast_mem hne)⟩

theorem append (hfront : Solid front) (mid : List Char) (hback : Solid back) :
    Solid (front ++ (mid ++ back)) where
  starts := by
    obtain ⟨c, rest, rfl, hc⟩ := hfront.starts
    exact ⟨c, rest ++ (mid ++ back), rfl, hc⟩
  stops := by
    obtain ⟨rest, c, rfl, hc⟩ := hback.stops
    exact ⟨front ++ (mid ++ rest), c, by simp only [List.append_assoc], hc⟩

theorem trim_eq (h : Solid text) : trim text = text := by
  obtain ⟨c, rest, heq, hc⟩ := h.starts
  obtain ⟨init, d, heq', hd⟩ := h.stops
  have hfront : text.dropWhile isBlank = text := by
    rw [heq, List.dropWhile_cons_of_neg (by rw [hc]; exact Bool.false_ne_true)]
  have hback : text.reverse.dropWhile isBlank = text.reverse := by
    rw [heq', List.reverse_concat,
      List.dropWhile_cons_of_neg (by rw [hd]; exact Bool.false_ne_true)]
  rw [trim, hfront, trimEnd, hback, List.reverse_reverse]

theorem takeWhile_isBlank (h : Solid text) (rest : List Char) :
    (text ++ rest).takeWhile isBlank = [] := by
  obtain ⟨c, tail, rfl, hc⟩ := h.starts
  exact List.takeWhile_cons_of_neg (by rw [hc]; exact Bool.false_ne_true)

theorem takeWhile_isSpace (h : Solid text) (rest : List Char) :
    (text ++ rest).takeWhile isSpace = [] := by
  obtain ⟨c, tail, rfl, hc⟩ := h.starts
  refine List.takeWhile_cons_of_neg ?_
  rw [isSpace, hc]
  exact Bool.false_ne_true

end Solid

/-! ## Texts and their tokens -/

/-- Wherever this text starts, it is read as tokens of these kinds. -/
def Scans (text : List Char) (kinds : List TokenKind) : Prop :=
  ∀ place, ∃ tokens, Token.scan place 0 text = .ok tokens ∧ tokens.map Token.kind = kinds

namespace Scans

variable {text rest : List Char} {kinds : List TokenKind}

theorem nil : Scans [] [] :=
  fun _ => ⟨[], rfl, rfl⟩

theorem token {lexeme : Lexeme} {kind : TokenKind}
    (hlexeme : lexeme? (text ++ rest) = some (lexeme, text))
    (hkind : ∀ place, Token.kind? lexeme text place = .ok (some kind)) (h : Scans rest kinds) :
    Scans (text ++ rest) (kind :: kinds) := by
  intro place
  obtain ⟨tokens, hscan, hkinds⟩ := h (place.after text)
  refine ⟨{ kind, span := place.span text, offset := place.offset } :: tokens, ?_,
    congrArg (kind :: ·) hkinds⟩
  rw [Token.scan_token hlexeme (hkind place), hscan]
  rfl

theorem symbol (s : Symbol) (h : Scans rest kinds) :
    Scans (s.char :: rest) (.symbol s :: kinds) := by
  have hlexeme : lexeme? ([s.char] ++ rest) = some (.symbol s, [s.char]) := lexeme?_symbol s rest
  exact h.token hlexeme fun _ => rfl

theorem spaces {gap : List Char} (hgap : ∀ c ∈ gap, isSpace c = true)
    (hrest : rest.takeWhile isSpace = []) (h : Scans rest kinds) : Scans (gap ++ rest) kinds := by
  cases gap with
  | nil => exact h
  | cons c gap =>
    obtain ⟨hc, hgap⟩ := List.forall_mem_cons.mp hgap
    have hlexeme := lexeme?_space hc hgap hrest
    intro place
    obtain ⟨tokens, hscan, hkinds⟩ := h (place.after (c :: gap))
    refine ⟨tokens, ?_, hkinds⟩
    rw [← hscan]
    exact Token.scan_blanks hlexeme rfl

theorem blank (hsolid : Solid text) (h : Scans (text ++ rest) kinds) :
    Scans (' ' :: (text ++ rest)) kinds :=
  have hblank : ∀ c ∈ [' '], isSpace c = true := List.forall_mem_singleton.mpr rfl
  h.spaces hblank (hsolid.takeWhile_isSpace rest)

/-- The blanks behind a line end belong to it. -/
theorem line {blanks : List Char} (hblanks : ∀ c ∈ blanks, isBlank c = true)
    (hrest : rest.takeWhile isBlank = []) (h : Scans rest kinds) :
    Scans ('\n' :: (blanks ++ rest)) (.newline :: kinds) := by
  have hlexeme := lexeme?_newline hblanks hrest
  rw [← List.cons_append] at hlexeme ⊢
  exact h.token hlexeme fun _ => rfl

theorem newline (hsolid : Solid text) (n : Nat) (h : Scans (text ++ rest) kinds) :
    Scans ('\n' :: (List.replicate n ' ' ++ (text ++ rest))) (.newline :: kinds) := by
  refine h.line (fun c hc => ?_) (hsolid.takeWhile_isBlank rest)
  rw [(List.mem_replicate.mp hc).2]
  decide

end Scans

/-! ## Names and numbers -/

namespace Lexeme

/-- A small letter with letters and digits behind it. -/
def isName : List Char → Bool
  | [] => false
  | c :: rest => isLower c && rest.all isNameChar

theorem isName_iff {text : List Char} :
    isName text = true ↔
      ∃ c rest, text = c :: rest ∧ isLower c = true ∧ ∀ d ∈ rest, isNameChar d = true := by
  cases text with
  | nil => exact ⟨nofun, nofun⟩
  | cons c rest =>
    simp only [isName, Bool.and_eq_true, List.all_eq_true]
    constructor
    · rintro ⟨hc, hrest⟩
      exact ⟨c, rest, rfl, hc, hrest⟩
    · rintro ⟨_, _, heq, hc, hrest⟩
      cases heq
      exact ⟨hc, hrest⟩

theorem solid_of_isName {text : List Char} (h : isName text = true) : Solid text := by
  obtain ⟨c, rest, rfl, hc, hrest⟩ := isName_iff.mp h
  refine .of_forall (List.cons_ne_nil _ _) fun d hd => ?_
  rcases List.mem_cons.mp hd with rfl | hd
  · exact isBlank_of_isNameChar (isNameChar_of_isLower hc)
  · exact isBlank_of_isNameChar (hrest d hd)

/-- One number from end to end, and its value. -/
inductive Numeral : List Char → Float → Prop
  | radix {base : Base} {mark : Char} {digits : List Char} (hmark : Base.ofMark? mark = some base)
      (hdigits : ∀ c ∈ digits, base.isDigit c = true) (hne : digits ≠ []) :
      Numeral ('0' :: mark :: digits) (base.value digits)
  | decimal {c : Char} (rest : List Char) {v : Float} (hc : Decimal.isDigit c = true)
      (hv : Decimal.unsigned? ((decimalText (c :: rest)).filter (· != ',')) = some v) :
      Numeral (decimalText (c :: rest)) v

/-- Neither a decimal number nor one in another base goes on with this text. -/
structure EndsNumber (rest : List Char) : Prop extends Ends rest where
  based : ∀ base : Base, rest.takeWhile base.isDigit = []
  unmarked : ∀ mark tail, rest = mark :: tail → Base.ofMark? mark = none

theorem EndsNumber.nil : EndsNumber [] :=
  { Ends.nil with based := fun _ => rfl, unmarked := nofun }

namespace Numeral

variable {text rest : List Char} {v : Float} {kinds : List TokenKind}

/-- No number in another base and no decimal number goes on behind this one with the text `rest`. For
digits in another base and for the mark of a base this is only asked if they could go on. -/
structure EndsBehind (text rest : List Char) : Prop extends Ends rest where
  based : ∀ base mark digits, text = '0' :: mark :: digits → Base.ofMark? mark = some base →
    rest.takeWhile base.isDigit = []
  unmarked : text = ['0'] → ∀ mark tail, rest = mark :: tail → Base.ofMark? mark = none

/-- A number is cut off a longer text if that does not go on with it. -/
theorem exists_lexeme (h : Numeral text v) (hrest : EndsBehind text rest) :
    ∃ lexeme, lexeme? (text ++ rest) = some (lexeme, text) ∧
      ∀ place, Token.kind? lexeme text place = .ok (some (.number v (String.ofList text))) := by
  cases h with
  | @radix base mark digits hmark hdigits hne =>
    have hlexeme := lexeme?_radix hmark hdigits hne (hrest.based _ _ _ rfl hmark)
    exact ⟨.radix base digits, hlexeme, fun _ => rfl⟩
  | decimal tail hc hv =>
    refine ⟨.decimal, lexeme?_decimal hc hrest.toEnds hrest.unmarked, fun place => ?_⟩
    simp only [Token.kind?, hv]

theorem scans_of_ends (h : Numeral text v) (hrest : EndsBehind text rest)
    (hscans : Scans rest kinds) :
    Scans (text ++ rest) (.number v (String.ofList text) :: kinds) := by
  obtain ⟨lexeme, hlexeme, hkind⟩ := h.exists_lexeme hrest
  exact hscans.token hlexeme hkind

theorem scans (h : Numeral text v) (hrest : EndsNumber rest) (hscans : Scans rest kinds) :
    Scans (text ++ rest) (.number v (String.ofList text) :: kinds) :=
  h.scans_of_ends
    { hrest.toEnds with
      based := fun base _ _ _ _ => hrest.based base
      unmarked := fun _ => hrest.unmarked }
    hscans

theorem isBlank_of_mem (h : Numeral text v) : ∀ c ∈ text, isBlank c = false := by
  cases h with
  | radix hmark hdigits hne =>
    refine List.forall_mem_cons.mpr ⟨by decide, List.forall_mem_cons.mpr ⟨?_, fun c hc => ?_⟩⟩
    · rcases Base.ofMark?_eq_some hmark with rfl | rfl | rfl <;> decide
    · rcases Base.isDigit_of_isDigit (hdigits c hc) with hdigit | hlower
      · exact isBlank_of_isDigit hdigit
      · exact isBlank_of_isNameChar (isNameChar_of_isLower hlower)
  | decimal rest hc hv =>
    intro c hc
    rcases mem_decimalText hc with hdigit | rfl | rfl | rfl | rfl
    · exact isBlank_of_isDigit hdigit
    all_goals decide

theorem ne_nil (h : Numeral text v) : text ≠ [] := by
  cases h with
  | radix => exact List.cons_ne_nil _ _
  | decimal rest hc hv => exact (Cuts.decimal rest hc).ne_nil

theorem solid (h : Numeral text v) : Solid text :=
  .of_forall h.ne_nil h.isBlank_of_mem

end Numeral
end Lexeme

theorem Scans.name {text rest : List Char} {kinds : List TokenKind} (h : Lexeme.isName text = true)
    (hrest : rest.takeWhile isNameChar = []) (hscans : Scans rest kinds) :
    Scans (text ++ rest) (.name (String.ofList text) :: kinds) := by
  obtain ⟨c, tail, rfl, hc, htail⟩ := isName_iff.mp h
  exact hscans.token (lexeme?_name hc htail hrest) fun _ => rfl

/-! ## What tokens say about their texts -/

/-- The text of a token of this kind is one that such a token is read from. -/
def TokenKind.Spelled : TokenKind → Prop
  | .number v source => Numeral source.toList v
  | .name x => Lexeme.isName x.toList = true
  | .newline | .symbol _ => True

theorem Token.spelled_of_kind? {text piece : List Char} {lexeme : Lexeme} {place : Place}
    {kind : TokenKind} (hcuts : Cuts text lexeme piece)
    (hkind : kind? lexeme piece place = .ok (some kind)) : kind.Spelled := by
  cases hcuts with
  | newline => cases hkind; trivial
  | space => cases hkind
  | symbol => cases hkind; trivial
  | radix hmark hdigits hne =>
    cases hkind
    rw [TokenKind.Spelled, String.toList_ofList]
    refine .radix hmark (fun c hc => ?_) hne
    rw [← hdigits] at hc
    exact List.all_eq_true.mp List.all_takeWhile c hc
  | decimal rest hc =>
    simp only [kind?] at hkind
    split at hkind
    next v hv =>
      cases hkind
      rw [TokenKind.Spelled, String.toList_ofList]
      exact .decimal rest hc hv
    next => cases hkind
  | name rest hc =>
    cases hkind
    rw [TokenKind.Spelled, String.toList_ofList]
    exact isName_iff.mpr ⟨_, _, rfl, hc, List.all_eq_true.mp List.all_takeWhile⟩

theorem Token.scan_spelled {place : Place} {text : List Char} {tokens : List Token}
    (h : scan place 0 text = .ok tokens) : ∀ t ∈ tokens, t.kind.Spelled := by
  induction place, text, tokens, h using scan_induct with
  | nil => exact nofun
  | blanks hcuts hkind ih => exact ih
  | token hcuts hkind ih => exact List.forall_mem_cons.mpr ⟨spelled_of_kind? hcuts hkind, ih⟩

theorem spelled_of_tokenize {source : String} {tokens : List Token}
    (h : tokenize source = .ok tokens) : ∀ t ∈ tokens, t.kind.Spelled :=
  Token.scan_spelled h

/-! ## Whole sources -/

theorem ok_of_toOption {ε α : Type} {x : Except ε α} {a : α} (h : x.toOption = some a) :
    x = .ok a := by
  cases x <;> cases h
  rfl

theorem Scans.tokenize {text : List Char} {kinds : List TokenKind} (hscans : Scans text kinds)
    (hsolid : Solid text) :
    ∃ tokens, tokenize (String.ofList text) = .ok tokens ∧ tokens.map Token.kind = kinds := by
  unfold Abacus.tokenize
  rw [String.toList_ofList, hsolid.trim_eq]
  exact hscans .origin

/-- The source is read as one number token with this value and this text. -/
def IsLiteral (v : Float) (source : String) : Prop :=
  ∃ t, tokenize source = .ok [t] ∧ t.kind = .number v source

theorem isLiteral_iff {v : Float} {source : String} :
    IsLiteral v source ↔ Numeral source.toList v := by
  constructor
  · rintro ⟨t, htokens, hkind⟩
    have hspelled := spelled_of_tokenize htokens t List.mem_cons_self
    rwa [hkind] at hspelled
  · intro h
    have hscans := h.scans .nil Scans.nil
    rw [List.append_nil, String.ofList_toList] at hscans
    obtain ⟨tokens, htokens, hkinds⟩ := hscans.tokenize h.solid
    rw [String.ofList_toList] at htokens
    obtain ⟨t, ts, rfl, hkind, hts⟩ := List.map_eq_cons_iff.mp hkinds
    obtain rfl := List.map_eq_nil_iff.mp hts
    exact ⟨t, htokens, hkind⟩

end Abacus
