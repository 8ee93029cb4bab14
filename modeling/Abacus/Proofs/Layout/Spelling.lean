import Abacus.Layout
import Abacus.Proofs.Grammar.Derivation
import Abacus.Proofs.Token.Scanning

/-!
# Texts put together from tokens

In a laid out text only a few things stand behind a name or a number, and none of them goes on with
it (`Stops`). A text spells a list of kinds if it is read as tokens of these kinds wherever one of
those things follows. Each way in which the layout puts texts together has one law here. The one
place where a number and a name stand side by side is `Spells.juxtaposed`.
-/
namespace Abacus

open Lexeme (isName isLower isNameChar Numeral EndsNumber Ends)

/-- What stands behind a name or a number in a laid out text. -/
inductive Stops : List Char → Prop
  | nil : Stops []
  | blank (rest : List Char) : Stops (' ' :: rest)
  | line (rest : List Char) : Stops ('\n' :: rest)
  | openParen (rest : List Char) : Stops ('(' :: rest)
  | closeParen (rest : List Char) : Stops (')' :: rest)
  | comma (rest : List Char) : Stops (',' :: ' ' :: rest)

namespace Stops

variable {rest : List Char}

theorem takeWhile_isNameChar (h : Stops rest) : rest.takeWhile isNameChar = [] := by
  cases h <;> rfl

theorem endsNumber (h : Stops rest) : EndsNumber rest where
  toEnds := by
    cases h with
    | nil => exact .nil
    | comma rest => exact .comma rest
    | _ rest => exact .cons (by decide) (by decide) (by decide) (by decide) (by decide)
  based base := by
    cases h <;> cases base <;> rfl
  unmarked mark tail heq := by
    cases h <;> cases heq <;> rfl

end Stops

/-- The text has no blanks around it and is read as tokens of these kinds. -/
structure Spells (text : List Char) (kinds : List TokenKind) : Prop where
  solid : Solid text
  scans : ∀ {rest : List Char} {others : List TokenKind}, Stops rest → Scans rest others →
    Scans (text ++ rest) (kinds ++ others)

theorem Symbol.solid (s : Symbol) : Solid [s.char] :=
  .of_forall (List.cons_ne_nil _ _) fun c hc => by
    rw [List.mem_singleton.mp hc]
    exact s.isBlank_char

namespace Spells

variable {text text' : List Char} {kinds kinds' : List TokenKind}

/-! ## Names and numbers -/

theorem name {x : String} (h : isName x.toList = true) : Spells x.toList [.name x] where
  solid := Lexeme.solid_of_isName h
  scans hstops hscans := by
    have hname := hscans.name h hstops.takeWhile_isNameChar
    rwa [String.ofList_toList] at hname

theorem number {v : Float} {source : String} (h : IsLiteral v source) :
    Spells source.toList [.number v source] where
  solid := (isLiteral_iff.mp h).solid
  scans hstops hscans := by
    have hnumber := (isLiteral_iff.mp h).scans hstops.endsNumber hscans
    rwa [String.ofList_toList] at hnumber

/-- A number does not read on into the name behind it, if the two do not merge. -/
theorem endsBehind_of_merges {coefficient x : List Char} (hx : isName x = true)
    (hmerges : Layout.merges coefficient x = false) (rest : List Char) :
    Numeral.EndsBehind coefficient (x ++ rest) := by
  obtain ⟨c, tail, rfl, hc, -⟩ := Lexeme.isName_iff.mp hx
  simp only [Layout.merges, Bool.or_eq_false_iff] at hmerges
  obtain ⟨⟨hbased, he⟩, hzero⟩ := hmerges
  have hbounds := Lexeme.isLower_iff.mp hc
  have hne : ∀ d : Char, ¬ (97 ≤ d.toNat ∧ d.toNat ≤ 122) → c ≠ d := by
    rintro d hd rfl
    exact hd hbounds
  have hce : c ≠ 'e' := by
    rintro rfl
    cases he
  have hends : Ends (c :: (tail ++ rest)) :=
    .cons (Lexeme.not_isDigit_of_isLower hc) (hne _ (by decide)) (hne _ (by decide)) hce
      (hne _ (by decide))
  refine { hends with based := ?_, unmarked := ?_ }
  · rintro base mark digits rfl hmark
    rcases Base.ofMark?_eq_some hmark with rfl | rfl | rfl <;> cases hbased
  · rintro rfl mark tail' hrest
    obtain ⟨rfl, -⟩ := List.cons.inj hrest
    cases hmark : Base.ofMark? c with
    | none => rfl
    | some base => rcases Base.ofMark?_eq_some hmark with rfl | rfl | rfl <;> cases hzero

/-- A name behind a number that does not read on into it. -/
theorem juxtaposed {v : Float} {source x : String} (h : IsLiteral v source)
    (hx : isName x.toList = true) (hmerges : Layout.merges source.toList x.toList = false) :
    Spells (source.toList ++ x.toList) [.number v source, .name x] where
  solid := (isLiteral_iff.mp h).solid.append [] (Lexeme.solid_of_isName hx)
  scans {rest others} hstops hscans := by
    have hname := (name hx).scans hstops hscans
    have hnumber := (isLiteral_iff.mp h).scans_of_ends (endsBehind_of_merges hx hmerges rest) hname
    rw [List.append_assoc]
    rwa [String.ofList_toList] at hnumber

/-! ## Symbols between texts -/

theorem behind (s : Symbol) (h : Spells text kinds) :
    Spells (s.char :: text) (.symbol s :: kinds) where
  solid := s.solid.append [] h.solid
  scans hstops hscans := (h.scans hstops hscans).symbol s

/-- Two texts with a symbol between them and a blank on both sides of it. -/
theorem between (s : Symbol) (h : Spells text kinds) (h' : Spells text' kinds') :
    Spells (text ++ ' ' :: s.char :: ' ' :: text') (kinds ++ .symbol s :: kinds') where
  solid := h.solid.append [' ', s.char, ' '] h'.solid
  scans {rest others} hstops hscans := by
    have hright := (Scans.blank h'.solid (h'.scans hstops hscans)).symbol s
    simp only [List.append_assoc, List.cons_append]
    exact h.scans (.blank _) (Scans.blank s.solid hright)

theorem comma (h : Spells text kinds) (h' : Spells text' kinds') :
    Spells (text ++ [',', ' '] ++ text') (kinds ++ .symbol .comma :: kinds') where
  solid := by
    rw [List.append_assoc]
    exact h.solid.append [',', ' '] h'.solid
  scans {rest others} hstops hscans := by
    have hright := (Scans.blank h'.solid (h'.scans hstops hscans)).symbol .comma
    simp only [List.append_assoc, List.cons_append]
    exact h.scans (.comma _) hright

/-- Nothing, or a text that spells something. -/
def OrNil (text : List Char) (kinds : List TokenKind) : Prop :=
  text = [] ∧ kinds = [] ∨ Spells text kinds

theorem grouped (h : Spells text kinds) :
    Spells ('(' :: (text ++ [')'])) (.symbol .openParen :: (kinds ++ [.symbol .closeParen])) where
  solid := Symbol.openParen.solid.append text Symbol.closeParen.solid
  scans {rest others} hstops hscans := by
    have hclose := hscans.symbol .closeParen
    simp only [List.append_assoc, List.cons_append, List.nil_append]
    exact (h.scans (.closeParen _) hclose).symbol .openParen

/-- A name with a list in brackets behind it. -/
theorem applied {f : String} (hf : isName f.toList = true) (h : OrNil text kinds) :
    Spells (f.toList ++ '(' :: (text ++ [')']))
      (.name f :: .symbol .openParen :: (kinds ++ [.symbol .closeParen])) where
  solid := (name hf).solid.append ('(' :: text) Symbol.closeParen.solid
  scans {rest others} hstops hscans := by
    have hclose := hscans.symbol .closeParen
    have hlist : Scans (text ++ ')' :: rest) (kinds ++ .symbol .closeParen :: others) := by
      rcases h with ⟨rfl, rfl⟩ | h
      · exact hclose
      · exact h.scans (.closeParen _) hclose
    simp only [List.append_assoc, List.cons_append, List.nil_append]
    exact (name hf).scans (.openParen _) (hlist.symbol .openParen)

/-! ## Lines -/

/-- Two texts on lines of their own. -/
theorem lines (depth : Nat) (h : Spells text kinds) (h' : Spells text' kinds') :
    Spells (text ++ Layout.lineBreak depth ++ text') (kinds ++ .newline :: kinds') where
  solid := by
    rw [List.append_assoc]
    exact h.solid.append _ h'.solid
  scans {rest others} hstops hscans := by
    have hright := Scans.newline h'.solid (2 * depth) (h'.scans hstops hscans)
    simp only [Layout.lineBreak, List.append_assoc, List.cons_append]
    exact h.scans (.line _) hright

/-- Braces around nothing. -/
theorem emptyBlock (depth : Nat) :
    Spells ('\x7b' :: (Layout.lineBreak depth ++ ['\x7d']))
      [.symbol .openBrace, .newline, .symbol .closeBrace] where
  solid := Symbol.openBrace.solid.append (Layout.lineBreak depth) Symbol.closeBrace.solid
  scans {rest others} _ hscans := by
    have hclose := Scans.newline Symbol.closeBrace.solid (2 * depth) (hscans.symbol .closeBrace)
    simp only [Layout.lineBreak, List.append_assoc, List.cons_append]
    exact hclose.symbol .openBrace

/-- Braces around a text on lines of its own. -/
theorem block (inner outer : Nat) (h : Spells text kinds) :
    Spells ('\x7b' :: (Layout.lineBreak inner ++ text ++ Layout.lineBreak outer ++ ['\x7d']))
      (.symbol .openBrace :: .newline :: (kinds ++ [.newline, .symbol .closeBrace])) where
  solid := Symbol.openBrace.solid.append (Layout.lineBreak inner ++ text ++ Layout.lineBreak outer)
    Symbol.closeBrace.solid
  scans {rest others} _ hscans := by
    have hclose := Scans.newline Symbol.closeBrace.solid (2 * outer) (hscans.symbol .closeBrace)
    have hopen := Scans.newline h.solid (2 * inner) (h.scans (.line _) hclose)
    simp only [Layout.lineBreak, List.append_assoc, List.cons_append]
    exact hopen.symbol .openBrace

end Spells
end Abacus
