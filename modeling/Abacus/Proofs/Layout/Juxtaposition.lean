import Abacus.Proofs.Token.Errors
import Abacus.Proofs.Layout.Computed

/-!
# A literal and a name side by side

A product of a literal and a variable is written as the one directly before the other, unless the
literal would read on into the name. What is written so is read as these two tokens in every text, as
long as no word or number in front goes on into the literal and none behind with the name
(`Layout.juxtaposed?_reads`). What stands in front and behind is read as it is without them: a text
whose last character ends every word and number is scanned by itself (`Token.scan_append`).
-/
namespace Abacus

open Lexeme Text
open Decimal (isDigit)

/-! ## Texts that end every word and number -/

/-- The last character, if there is one, is none with which a word or a number goes on. -/
def Closed (text : List Char) : Prop :=
  ∀ c, text.getLast? = some c → isNameChar c = false ∧ c ≠ ',' ∧ c ≠ '.'

theorem Closed.of_append {front back : List Char} (h : Closed (front ++ back)) : Closed back := by
  intro c hc
  refine h c ?_
  rw [List.getLast?_append, hc, Option.some_or]

theorem Closed.dropWhile_isBlank {text : List Char} (h : Closed text) :
    Closed (text.dropWhile isBlank) := by
  rw [← List.takeWhile_append_dropWhile (p := isBlank) (l := text)] at h
  exact h.of_append

section
variable {c : Char} (h : isNameChar c = false)
include h

theorem isDigit_of_not_isNameChar : isDigit c = false := by
  simp only [isNameChar, Bool.or_eq_false_iff] at h
  exact h.2

theorem isLower_of_not_isNameChar : isLower c = false := by
  simp only [isNameChar, Bool.or_eq_false_iff] at h
  exact h.1.1

/-- Only blanks and symbols end in a character with which no word or number goes on. -/
theorem Cuts.of_not_isNameChar {text piece : List Char} {lexeme : Lexeme}
    (hcuts : Cuts text lexeme piece) (hcomma : c ≠ ',') (hpoint : c ≠ '.') (hc : c ∈ piece) :
    lexeme = .newline ∨ lexeme = .space ∨ ∃ s, lexeme = .symbol s := by
  have hdigit := isDigit_of_not_isNameChar h
  have hlower := isLower_of_not_isNameChar h
  cases hcuts with
  | newline rest => exact .inl rfl
  | space rest => exact .inr (.inl rfl)
  | symbol rest => exact .inr (.inr ⟨_, rfl⟩)
  | radix hmark hdigits hne =>
    rcases List.mem_cons.mp hc with rfl | hc
    · cases hdigit
    rcases List.mem_cons.mp hc with rfl | hc
    · rcases Base.ofMark?_eq_some hmark with rfl | rfl | rfl <;> cases hlower
    rw [← hdigits] at hc
    rcases Base.isDigit_of_isDigit (List.all_eq_true.mp List.all_takeWhile c hc) with hc | hc
    · rw [hdigit] at hc
      cases hc
    · rw [hlower] at hc
      cases hc
  | decimal rest =>
    rcases mem_decimalText hc with hc | hc | hc | rfl | rfl
    · rw [hdigit] at hc
      cases hc
    · exact absurd hc hcomma
    · exact absurd hc hpoint
    · cases hlower
    · cases h
  | name rest hfirst =>
    rcases List.mem_cons.mp hc with rfl | hc
    · rw [hfirst] at hlower
      cases hlower
    · rw [List.all_eq_true.mp List.all_takeWhile c hc] at h
      cases h

end

/-- Blanks and symbols are the same lexeme in front of a text that does not start with a blank. -/
theorem lexeme?_append_of_whole {tail piece : List Char} {lexeme : Lexeme}
    (hlexeme : lexeme = .newline ∨ lexeme = .space ∨ ∃ s, lexeme = .symbol s)
    (htail : tail.takeWhile isBlank = []) (h : lexeme? piece = some (lexeme, piece)) :
    lexeme? (piece ++ tail) = some (lexeme, piece) := by
  have hcuts := Cuts.of_lexeme? h
  rcases hlexeme with rfl | rfl | ⟨s, rfl⟩
  · have hself : Cuts (piece ++ []) .newline piece := by rwa [List.append_nil]
    obtain ⟨⟨blanks, hblanks, hall⟩, -⟩ := hself.newline_inv
    rw [hblanks]
    exact lexeme?_newline hall htail
  · have hspace : tail.takeWhile isSpace = [] := by
      cases tail with
      | nil => rfl
      | cons d tail =>
        refine List.takeWhile_cons_of_neg fun hd => ?_
        rw [List.takeWhile_cons_of_pos (isBlank_of_isSpace hd)] at htail
        cases htail
    have hspaces := hcuts.isSpace_of_mem
    obtain ⟨d, gap, rfl⟩ := List.exists_cons_of_ne_nil hcuts.ne_nil
    obtain ⟨hd, hgap⟩ := List.forall_mem_cons.mp hspaces
    exact lexeme?_space hd hgap hspace
  · rw [hcuts.symbol_inv]
    exact lexeme?_symbol s tail

/-- The lexeme at the front of a closed text is the same in front of a text that does not start with
a blank. -/
theorem lexeme?_append_of_closed {front tail piece : List Char} {lexeme : Lexeme}
    (hclosed : Closed front) (htail : tail.takeWhile isBlank = [])
    (h : lexeme? front = some (lexeme, piece)) : lexeme? (front ++ tail) = some (lexeme, piece) := by
  have hcuts := Cuts.of_lexeme? h
  rcases List.eq_nil_or_concat' front with rfl | ⟨body, c, rfl⟩
  · cases h
  obtain ⟨hc, hcomma, hpoint⟩ := hclosed c (List.getLast?_concat ..)
  by_cases hle : piece.length ≤ body.length
  · have hbreaks : Breaks c :=
      ⟨isDigit_of_not_isNameChar hc, isLower_of_not_isNameChar hc, hcomma⟩
    have hsteady := lexeme?_steady hbreaks (.cons tail) h hle fun _ _ hspecial => by
      rcases hspecial with rfl | rfl
      · exact absurd rfl hpoint
      · cases hc
    rwa [List.append_assoc, List.singleton_append]
  · have hpiece : piece = body ++ [c] := by
      refine hcuts.isPrefix.eq_of_length_le ?_
      rw [List.length_append]
      exact Nat.not_le.mp hle
    have hmem : c ∈ piece := by
      rw [hpiece]
      exact List.mem_append_right body List.mem_cons_self
    rw [← hpiece] at h ⊢
    exact lexeme?_append_of_whole (hcuts.of_not_isNameChar hc hcomma hpoint hmem) htail h

namespace Token

/-- **A closed text is scanned by itself**: the tokens of the whole are those of the closed text and
behind them those of the rest, and the first error is the error of the whole. -/
theorem scan_append {place : Place} {front tail : List Char} (hclosed : Closed front)
    (htail : tail.takeWhile isBlank = []) :
    scan place 0 (front ++ tail) = (do
      let tokens ← scan place 0 front
      let others ← scan (place.after front) 0 tail
      pure (tokens ++ others)) := by
  generalize hn : front.length = n
  induction n using Nat.strongRecOn generalizing place front with
  | _ n ih =>
    cases hlexeme : lexeme? front with
    | none =>
      cases front with
      | nil =>
        change scan place 0 tail = (do
          let others ← scan place 0 tail
          pure ([] ++ others))
        cases scan place 0 tail <;> rfl
      | cons c rest =>
        have hc := lexeme?_cons_eq_none.mp hlexeme
        have hlonger : lexeme? (c :: (rest ++ tail)) = none := lexeme?_cons_eq_none.mpr hc
        rw [scan_of_not_lexeme? hlexeme, List.cons_append, scan_of_not_lexeme? hlonger]
        rfl
    | some cut =>
      obtain ⟨lexeme, piece⟩ := cut
      have hcuts := Cuts.of_lexeme? hlexeme
      have hlonger := lexeme?_append_of_closed hclosed htail hlexeme
      obtain ⟨rest, rfl⟩ := hcuts.isPrefix
      have hshorter : rest.length < n := by
        have hpos := List.length_pos_iff.mpr hcuts.ne_nil
        rw [← hn, List.length_append]
        omega
      have hrest := @ih _ hshorter (place.after piece) rest hclosed.of_append rfl
      obtain ⟨kind, hkind⟩ := exists_kind? hcuts place
      rw [List.append_assoc] at hlonger ⊢
      rw [Place.after_append]
      cases kind with
      | none => rw [scan_blanks hlonger hkind, scan_blanks hlexeme hkind, hrest]
      | some kind =>
        rw [scan_token hlonger hkind, scan_token hlexeme hkind, hrest]
        cases scan (place.after piece) 0 rest with
        | error e => rfl
        | ok tokens => cases scan ((place.after piece).after rest) 0 tail <;> rfl

end Token

theorem trim_append {front text back : List Char} (htext : Solid text) :
    trim (front ++ text ++ back) = front.dropWhile isBlank ++ (text ++ trimEnd back) := by
  obtain ⟨c, rest, hstart, hc⟩ := htext.starts
  obtain ⟨init, d, hstop, hd⟩ := htext.stops
  have hsolid : trimEnd (text ++ back) = text ++ trimEnd back := by
    rw [trimEnd_append]
    split
    next hnone =>
      rw [hnone, List.append_nil, hstop, trimEnd, List.reverse_concat,
        List.dropWhile_cons_of_neg (by rw [hd]; exact Bool.false_ne_true), ← List.reverse_concat,
        List.reverse_reverse]
    next => rfl
  have hne : trimEnd (text ++ back) ≠ [] := by
    rw [hsolid, hstart]
    exact List.cons_ne_nil _ _
  have hdrop : (front ++ (text ++ back)).dropWhile isBlank =
      front.dropWhile isBlank ++ (text ++ back) := by
    rw [List.dropWhile_append]
    split
    next hempty =>
      rw [List.isEmpty_iff.mp hempty, List.nil_append, hstart, List.cons_append,
        List.dropWhile_cons_of_neg (by rw [hc]; exact Bool.false_ne_true)]
    next => rfl
  rw [trim, List.append_assoc, hdrop, trimEnd_append, if_neg hne, hsolid]

namespace Layout

theorem multiply_juxtaposed?_eq_some {id id' : NodeId} {value : Float} {source : Option String} {x : String}
    {text : List Char}
    (h : juxtaposed? .multiply (.number id value source) (.var id' x) = some text) :
    value.isFinite = true ∧ Decimal.isNegative value = false ∧
      merges (numeral value source) x.toList = false ∧ text = numeral value source ++ x.toList := by
  simp only [juxtaposed?] at h
  split at h
  next => cases h
  next hguard =>
    simp only [Bool.or_eq_true, Bool.not_eq_true', not_or, Bool.not_eq_false, Bool.not_eq_true]
      at hguard
    exact ⟨hguard.1.1, hguard.1.2, hguard.2, (Option.some.inj h).symm⟩

/-- The text of a literal that is not negative is read as one number, whether it was written or
computed. -/
theorem exists_isLiteral_numeral {value : Float} {source : Option String}
    (hfinite : value.isFinite = true) (hpositive : Decimal.isNegative value = false)
    (hsource : ∀ s, source = some s → ∃ v, IsLiteral v s) :
    ∃ v, IsLiteral v (String.ofList (numeral value source)) ∧ (source = none → v = value) := by
  cases source with
  | none =>
    have htext : numeral value none = Decimal.magnitude value := by
      rw [numeral, Decimal.renderChars_of_isFinite hfinite, hpositive]
      rfl
    rw [htext]
    exact ⟨value, Decimal.isLiteral_magnitude hfinite hpositive, fun _ => rfl⟩
  | some s =>
    obtain ⟨v, hv⟩ := hsource s rfl
    refine ⟨v, ?_, nofun⟩
    rwa [numeral, String.ofList_toList]

/-- The tokens of a number and of a name behind it. -/
theorem scan_merges {c x rest : List Char} {v : Float} (hliteral : Numeral c v)
    (hx : isName x = true) (hmerges : merges c x = false) (hrest : rest.takeWhile isNameChar = [])
    (first : Place) :
    Token.scan first 0 (c ++ (x ++ rest)) = (do
      let back ← Token.scan ((first.after c).after x) 0 rest
      pure ({ kind := .number v (String.ofList c), span := first.span c, offset := first.offset } ::
        { kind := .name (String.ofList x)
          span := (first.after c).span x
          offset := (first.after c).offset } :: back)) := by
  obtain ⟨lexeme, hlexeme, hkind⟩ :=
    hliteral.exists_lexeme (Spells.endsBehind_of_merges hx hmerges rest)
  have hname : lexeme? (x ++ rest) = some (.name, x) := by
    obtain ⟨d, tail, rfl, hd, htail⟩ := isName_iff.mp hx
    exact lexeme?_name hd htail hrest
  have hnameKind : Token.kind? .name x (first.after c) = .ok (some (.name (String.ofList x))) := rfl
  rw [Token.scan_token hlexeme (hkind first), Token.scan_token hname hnameKind]
  cases Token.scan ((first.after c).after x) 0 rest <;> rfl

/-- **A literal directly before a name is read as the two of them.** Let the literal and the variable
of a product be written as one text. Then this is the text of the literal with the name behind it, and
in every source where a closed text stands in front of it and no letter or digit behind, the scan of
the source is the scan of what is in front, the number with exactly the literal's text, the name, and
the scan of what is behind. An error in front or behind is the error of the whole. -/
theorem juxtaposed?_reads {id id' : NodeId} {value : Float} {source : Option String} {x : String}
    {text before after : List Char}
    (h : juxtaposed? .multiply (.number id value source) (.var id' x) = some text)
    (hsource : ∀ s, source = some s → ∃ v, IsLiteral v s) (hx : isName x.toList = true)
    (hbefore : Closed before) (hafter : ∀ c, after.head? = some c → isNameChar c = false) :
    ∃ v, IsLiteral v (String.ofList (numeral value source)) ∧ (source = none → v = value) ∧
      text = numeral value source ++ x.toList ∧
      tokenize (String.ofList (before ++ text ++ after)) = (do
        let first := Place.origin.after (before.dropWhile isBlank)
        let second := first.after (numeral value source)
        let front ← Token.scan .origin 0 (before.dropWhile isBlank)
        let back ← Token.scan (second.after x.toList) 0 (trimEnd after)
        pure (front ++
          { kind := .number v (String.ofList (numeral value source))
            span := first.span (numeral value source)
            offset := first.offset } ::
          { kind := .name x, span := second.span x.toList, offset := second.offset } :: back)) := by
  obtain ⟨hfinite, hpositive, hmerges, rfl⟩ := multiply_juxtaposed?_eq_some h
  obtain ⟨v, hliteral, hvalue⟩ := exists_isLiteral_numeral hfinite hpositive hsource
  refine ⟨v, hliteral, hvalue, rfl, ?_⟩
  have hnumeral := isLiteral_iff.mp hliteral
  rw [String.toList_ofList] at hnumeral
  have hsolid := hnumeral.solid.append [] (solid_of_isName hx)
  have hbehind : (trimEnd after).takeWhile isNameChar = [] := by
    obtain ⟨blanks, hblanks⟩ := trimEnd_isPrefix after
    cases hback : trimEnd after with
    | nil => rfl
    | cons d rest =>
      rw [hback] at hblanks
      have hd := hafter d (by rw [← hblanks]; rfl)
      exact List.takeWhile_cons_of_neg (by rw [hd]; exact Bool.false_ne_true)
  rw [List.nil_append] at hsolid
  rw [tokenize, String.toList_ofList, trim_append hsolid,
    Token.scan_append hbefore.dropWhile_isBlank (hsolid.takeWhile_isBlank _), List.append_assoc,
    scan_merges hnumeral hx hmerges hbehind, String.ofList_toList]
  cases Token.scan .origin 0 (before.dropWhile isBlank) with
  | error e => rfl
  | ok front =>
    dsimp only [bind, Except.bind]
    cases Token.scan _ 0 (trimEnd after) <;> rfl

/-- Two zeros are no single one, so that a base can be no part of them, and the name behind them may
start with the mark of one. -/
theorem juxtaposed?_reads_zeros :
    IsLiteral 0 "00" ∧
      juxtaposed? .multiply (.number 1 0 (some "00")) (.var 2 "b1") = some "00b1".toList ∧
      ∃ v, IsLiteral v "00" ∧
        (tokenize "a = -00b1 + y").map (·.map Token.kind) =
          .ok [.name "a", .symbol .equals, .symbol .minus, .number v "00", .name "b1",
            .symbol .plus, .name "y"] := by
  have hzeros : IsLiteral 0 "00" := ⟨_, rfl, rfl⟩
  have htext : juxtaposed? .multiply (.number 1 0 (some "00")) (.var 2 "b1") =
      some "00b1".toList := by
    rfl
  have hsource : ∀ s, some "00" = some s → ∃ v, IsLiteral v s := by
    intro s hs
    obtain rfl := Option.some.inj hs
    exact ⟨0, hzeros⟩
  have hname : isName "b1".toList = true := by rfl
  have hbefore : Closed "a = -".toList := by
    intro c hc
    cases hc
    decide
  have hafter : ∀ c, " + y".toList.head? = some c → isNameChar c = false := by
    intro c hc
    cases hc
    rfl
  obtain ⟨v, hv, -, -, htokens⟩ := juxtaposed?_reads htext hsource hname hbefore hafter
  exact ⟨hzeros, htext, v, hv, congrArg (Except.map (List.map Token.kind)) htokens⟩

end Layout
end Abacus
