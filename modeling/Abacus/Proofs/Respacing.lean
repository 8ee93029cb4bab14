import Abacus.Proofs.Formatting
import Abacus.Proofs.Grammar.Kinds
import Abacus.Proofs.Token.Places

/-!
# Spacing does not matter

The texts of the tokens of a source, put together again with any runs of spaces between them, are read
as tokens of the same kinds (`tokenize_respace`), and so as the same program (`parse_respace`).

How far a literal reaches depends on what follows it: `1,234` is one number and `1,23` are two with a
comma. But each token was cut off whole, and behind its text there now is a blank, which goes on with
nothing. Only a line end takes the blanks behind it; then it has to be seen that the next token starts
with none, and that is so because no two line ends stand side by side.
-/
namespace Abacus

open Lexeme Text

/-- The texts of the tokens, with `gap n` in front of the last `n` of them. -/
def respace (gap : Nat → List Char) : List Token → List Char
  | [] => []
  | [t] => t.span.text.toList
  | t :: u :: rest =>
    t.span.text.toList ++ (gap (rest.length + 1) ++ respace gap (u :: rest))

/-! ## Behind a token -/

section
variable {rest : List Char} (hrest : ∀ c, rest.head? = some c → isBlank c = true)
include hrest

theorem takeWhile_isNameChar_of_isBlank : rest.takeWhile isNameChar = [] := by
  cases rest with
  | nil => rfl
  | cons c rest =>
    refine List.takeWhile_cons_of_neg fun hname => ?_
    have hblank := hrest c rfl
    rw [isBlank_of_isNameChar hname] at hblank
    cases hblank

theorem endsNumber_of_isBlank : EndsNumber rest := by
  cases rest with
  | nil => exact .nil
  | cons c rest =>
    have hblank := hrest c rfl
    have hne : ∀ d, isBlank d = false → c ≠ d := by
      rintro d hd rfl
      rw [hd] at hblank
      cases hblank
    have hdigit : Decimal.isDigit c = false := by
      by_contra h
      rw [Bool.not_eq_false] at h
      exact hne c (isBlank_of_isDigit h) rfl
    have hlower : isLower c = false := by
      by_contra h
      rw [Bool.not_eq_false] at h
      exact hne c (isBlank_of_isNameChar (isNameChar_of_isLower h)) rfl
    refine { Ends.cons hdigit (hne _ rfl) (hne _ rfl) (hne _ rfl) (hne _ rfl) with
      based := fun base => List.takeWhile_cons_of_neg fun h => ?_
      unmarked := fun mark tail heq => ?_ }
    · rcases Base.isDigit_of_isDigit h with h | h
      · rw [hdigit] at h
        cases h
      · rw [hlower] at h
        cases h
    · obtain ⟨rfl, -⟩ := List.cons.inj heq
      cases hmark : Base.ofMark? c with
      | none => rfl
      | some base =>
        rcases Base.ofMark?_eq_some hmark with rfl | rfl | rfl <;> cases hblank

end

/-! ## One token -/

/-- A token of this kind is read from this text, all of it. -/
inductive TokenKind.Legible : TokenKind → List Char → Prop
  | number {v : Float} {text : List Char} (h : Numeral text v) :
      Legible (.number v (String.ofList text)) text
  | name {text : List Char} (h : isName text = true) : Legible (.name (String.ofList text)) text
  | newline {blanks : List Char} (h : ∀ c ∈ blanks, isBlank c = true) :
      Legible .newline ('\n' :: blanks)
  | symbol (s : Symbol) : Legible (.symbol s) [s.char]

namespace TokenKind

variable {kind : TokenKind} {text rest : List Char} {kinds : List TokenKind}

theorem legible (hspelled : kind.Spelled) (hwritten : kind.Written text) : kind.Legible text := by
  cases kind with
  | number v source =>
    obtain rfl : source = String.ofList text := hwritten
    rw [Spelled, String.toList_ofList] at hspelled
    exact .number hspelled
  | name x =>
    obtain rfl : x = String.ofList text := hwritten
    rw [Spelled, String.toList_ofList] at hspelled
    exact .name hspelled
  | newline =>
    obtain ⟨blanks, rfl, hblanks⟩ := hwritten
    exact .newline hblanks
  | symbol s =>
    obtain rfl : text = [s.char] := hwritten
    exact .symbol s

namespace Legible

theorem solid (h : kind.Legible text) (hline : kind ≠ .newline) : Solid text := by
  cases h with
  | number h => exact h.solid
  | name h => exact solid_of_isName h
  | newline => exact absurd rfl hline
  | symbol s => exact s.solid

theorem eq_newline (h : Legible .newline text) :
    ∃ blanks, text = '\n' :: blanks ∧ ∀ c ∈ blanks, isBlank c = true := by
  cases h with
  | newline h => exact ⟨_, rfl, h⟩

theorem takeWhile_isSpace (h : kind.Legible text) (rest : List Char) :
    (text ++ rest).takeWhile isSpace = [] := by
  by_cases hline : kind = .newline
  · subst hline
    obtain ⟨blanks, rfl, -⟩ := h.eq_newline
    rfl
  · exact (h.solid hline).takeWhile_isSpace rest

/-- What ends no line is read again in front of a blank. -/
theorem scans (h : kind.Legible text) (hline : kind ≠ .newline)
    (hrest : ∀ c, rest.head? = some c → isBlank c = true) (hscans : Scans rest kinds) :
    Scans (text ++ rest) (kind :: kinds) := by
  cases h with
  | number h => exact h.scans (endsNumber_of_isBlank hrest) hscans
  | name h => exact hscans.name h (takeWhile_isNameChar_of_isBlank hrest)
  | newline => exact absurd rfl hline
  | symbol s => exact hscans.symbol s

end Legible
end TokenKind

/-- The token is read from its text, all of it. -/
def Token.Legible (t : Token) : Prop :=
  t.kind.Legible t.span.text.toList

theorem legible_of_tokenize {source : String} {tokens : List Token}
    (h : tokenize source = .ok tokens) : ∀ t ∈ tokens, t.Legible := by
  intro t ht
  obtain ⟨gap, text, back, -, hat⟩ := (tiles_of_tokenize h).exists_at t ht
  have hspelled := spelled_of_tokenize h t ht
  unfold Token.Legible
  rw [hat.span, String.toList_ofList]
  exact TokenKind.legible hspelled hat.written

/-! ## All tokens -/

theorem respace_cons (gap : Nat → List Char) (t : Token) (tokens : List Token) :
    ∃ rest, respace gap (t :: tokens) = t.span.text.toList ++ rest := by
  cases tokens with
  | nil => exact ⟨[], (List.append_nil _).symm⟩
  | cons u tokens => exact ⟨_, rfl⟩

theorem respace_getLast? (gap : Nat → List Char) {tokens : List Token} {t : Token}
    (h : tokens.getLast? = some t) :
    ∃ front, respace gap tokens = front ++ t.span.text.toList := by
  fun_induction respace gap tokens with
  | case1 => cases h
  | case2 u =>
    cases h
    exact ⟨[], rfl⟩
  | case3 u v rest ih =>
    obtain ⟨front, hfront⟩ := ih h
    refine ⟨u.span.text.toList ++ (gap (rest.length + 1) ++ front), ?_⟩
    simp only [hfront, List.append_assoc]

section
variable {gap : Nat → List Char} (hgap : ∀ n, gap n ≠ [] ∧ ∀ c ∈ gap n, isSpace c = true)
include hgap

theorem isBlank_of_head?_gap {n : Nat} {rest : List Char} :
    ∀ c, (gap n ++ rest).head? = some c → isBlank c = true := by
  obtain ⟨hne, hspace⟩ := hgap n
  obtain ⟨d, tail, heq⟩ := List.exists_cons_of_ne_nil hne
  intro c hc
  rw [heq] at hspace hc
  cases hc
  exact isBlank_of_isSpace (hspace d List.mem_cons_self)

theorem scans_respace {tokens : List Token} (hlegible : ∀ t ∈ tokens, t.Legible)
    (hchain : tokens.IsChain fun t u => ¬(t.kind = .newline ∧ u.kind = .newline))
    (hlast : ∀ t, tokens.getLast? = some t → t.kind ≠ .newline) :
    Scans (respace gap tokens) (tokens.map Token.kind) := by
  fun_induction respace gap tokens with
  | case1 => exact .nil
  | case2 t =>
    have hend : ∀ c, [].head? = some c → isBlank c = true := by simp
    have hscans := (hlegible t List.mem_cons_self).scans (hlast t rfl) hend .nil
    rwa [List.append_nil] at hscans
  | case3 t u rest ih =>
    obtain ⟨ht, hrest⟩ := List.forall_mem_cons.mp hlegible
    have hu := hrest u List.mem_cons_self
    unfold Token.Legible at ht
    obtain ⟨hpair, hchain⟩ := List.isChain_cons_cons.mp hchain
    have hscans := ih hrest hchain hlast
    obtain ⟨tail, htail⟩ := respace_cons gap u rest
    obtain ⟨-, hspace⟩ := hgap (rest.length + 1)
    rw [List.map_cons]
    by_cases hline : t.kind = .newline
    · -- the line end takes the gap, and the next token starts with no blank
      rw [hline] at ht ⊢
      obtain ⟨blanks, htext, hblanks⟩ := ht.eq_newline
      have hsolid := hu.solid fun hline' => hpair ⟨hline, hline'⟩
      have hnext : (respace gap (u :: rest)).takeWhile isBlank = [] := by
        rw [htail]
        exact hsolid.takeWhile_isBlank tail
      have hall : ∀ c ∈ blanks ++ gap (rest.length + 1), isBlank c = true :=
        List.forall_mem_append.mpr ⟨hblanks, fun c hc => isBlank_of_isSpace (hspace c hc)⟩
      have hjoined := hscans.line hall hnext
      rw [htext]
      rwa [List.append_assoc] at hjoined
    · have hnext : (respace gap (u :: rest)).takeWhile isSpace = [] := by
        rw [htail]
        exact hu.takeWhile_isSpace tail
      exact ht.scans hline (isBlank_of_head?_gap hgap) (hscans.spaces hspace hnext)

end

theorem solid_respace {tokens : List Token} (hne : tokens ≠ []) (gap : Nat → List Char)
    (hlegible : ∀ t ∈ tokens, t.Legible)
    (hhead : ∀ t, tokens.head? = some t → t.kind ≠ .newline)
    (hlast : ∀ t, tokens.getLast? = some t → t.kind ≠ .newline) : Solid (respace gap tokens) where
  starts := by
    obtain ⟨t, rest, rfl⟩ := List.exists_cons_of_ne_nil hne
    obtain ⟨tail, htail⟩ := respace_cons gap t rest
    obtain ⟨c, text, htext, hc⟩ := ((hlegible t List.mem_cons_self).solid (hhead t rfl)).starts
    exact ⟨c, text ++ tail, by rw [htail, htext, List.cons_append], hc⟩
  stops := by
    have hmem := List.getLast_mem hne
    have hlast' := List.getLast?_eq_some_getLast hne
    obtain ⟨front, hfront⟩ := respace_getLast? gap hlast'
    obtain ⟨text, c, htext, hc⟩ := ((hlegible _ hmem).solid (hlast _ hlast')).stops
    exact ⟨front ++ text, c, by rw [hfront, htext, List.append_assoc], hc⟩

/-- Texts put together again with other spaces between them are read as tokens of the same kinds. -/
theorem tokenize_respace {source : String} {tokens : List Token} (h : tokenize source = .ok tokens)
    {gap : Nat → List Char} (hgap : ∀ n, gap n ≠ [] ∧ ∀ c ∈ gap n, isSpace c = true) :
    ∃ tokens', tokenize (String.ofList (respace gap tokens)) = .ok tokens' ∧
      kinds tokens' = kinds tokens := by
  have htiles := tiles_of_tokenize h
  have hlegible := legible_of_tokenize h
  have hhead := htiles.head_ne_newline (takeWhile_isBlank_trim _)
  have hlast := htiles.last_ne_newline fun c => isBlank_of_getLast?_trim
  by_cases hne : tokens = []
  · subst hne
    exact ⟨[], rfl, rfl⟩
  · exact (scans_respace hgap hlegible htiles.isChain hlast).tokenize
      (solid_respace hne gap hlegible hhead hlast)

/-! ## Programs -/

/-- What sources come to whose tokens are of the same kinds. -/
theorem parse_kinds {source source' : String} {tokens tokens' : List Token}
    (h : tokenize source = .ok tokens) (h' : tokenize source' = .ok tokens')
    (hkinds : kinds tokens' = kinds tokens) (fold : Bool) :
    (∃ p, (parse source fold).result = .ok p ∧ (parse source' fold).result = .ok p) ∨
      ∃ e e', (parse source fold).result = .error (.grammatical e) ∧
        (parse source' fold).result = .error (.grammatical e') ∧ e'.unplaced = e.unplaced := by
  rw [result_parse h, result_parse h']
  have hread := Program.ofTokens_kinds hkinds
  generalize Program.ofTokens tokens = x, Program.ofTokens tokens' = x' at hread
  match x, x', hread with
  | .ok p, .ok _, rfl => exact .inl ⟨_, rfl, rfl⟩
  | .error e, .error e', hread =>
    exact .inr ⟨e, e', rfl, rfl, Except.error.inj hread⟩

/-- **Spacing does not matter.** Let a source be read, and put the texts of its tokens together again,
with a run of spaces of one's choice at each place between two of them. This is read as tokens of the
same kinds, with the values and texts of numbers and the names. It is the same program, or fails with
the same message, the same expectations and the same finding. -/
theorem parse_respace {source : String} {tokens : List Token} (h : tokenize source = .ok tokens)
    {gap : Nat → List Char} (hgap : ∀ n, gap n ≠ [] ∧ ∀ c ∈ gap n, isSpace c = true) :
    (∃ tokens', tokenize (String.ofList (respace gap tokens)) = .ok tokens' ∧
      tokens'.map Token.kind = tokens.map Token.kind) ∧
    ∀ fold,
      (∃ p, (parse source fold).result = .ok p ∧
        (parse (String.ofList (respace gap tokens)) fold).result = .ok p) ∨
      ∃ e e', (parse source fold).result = .error (.grammatical e) ∧
        (parse (String.ofList (respace gap tokens)) fold).result = .error (.grammatical e') ∧
        e'.what = e.what ∧ e'.expected = e.expected ∧ e'.found = e.found := by
  obtain ⟨tokens', h', hkinds⟩ := tokenize_respace h hgap
  refine ⟨⟨tokens', h', hkinds⟩, fun fold => ?_⟩
  rcases parse_kinds h h' hkinds fold with hsame | ⟨e, e', he, he', heq⟩
  · exact .inl hsame
  · obtain ⟨hwhat, hexpected, hfound, -⟩ := SyntaxError.unplaced_eq_iff.mp heq
    exact .inr ⟨e, e', he, he', hwhat, hexpected, hfound⟩

/-- In `0b2` a number ends where a digit of another base had to follow, and in `1,23` where a third
digit had to. -/
theorem parse_respace_shortNumbers :
    ∃ tokens, tokenize "b2 = 3\n\n 0b2-max(1,23)" = .ok tokens ∧
      respace (fun n => List.replicate (n % 2 + 1) ' ') tokens =
        "b2 =  3 \n\n   0 b2  - max  ( 1  , 23  )".toList ∧
      (∃ tokens', tokenize "b2 =  3 \n\n   0 b2  - max  ( 1  , 23  )" = .ok tokens' ∧
        tokens'.map Token.kind = tokens.map Token.kind) ∧
      ∃ p, (parse "b2 = 3\n\n 0b2-max(1,23)" false).result = .ok p ∧
        (parse "b2 =  3 \n\n   0 b2  - max  ( 1  , 23  )" false).result = .ok p := by
  have hread : (tokenize "b2 = 3\n\n 0b2-max(1,23)").toOption.map
      (respace fun n => List.replicate (n % 2 + 1) ' ') =
        some "b2 =  3 \n\n   0 b2  - max  ( 1  , 23  )".toList := by
    decide +kernel
  obtain ⟨tokens, htokens, htext⟩ := Option.map_eq_some_iff.mp hread
  have hspace : ∀ n, List.replicate (n % 2 + 1) ' ' ≠ [] ∧
      ∀ c ∈ List.replicate (n % 2 + 1) ' ', isSpace c = true := by
    intro n
    refine ⟨by simp, fun c hc => ?_⟩
    rw [(List.mem_replicate.mp hc).2]
    decide
  obtain ⟨hkinds, hparse⟩ := parse_respace (ok_of_toOption htokens) hspace
  rw [htext, String.ofList_toList] at hkinds hparse
  refine ⟨tokens, ok_of_toOption htokens, htext, hkinds, ?_⟩
  rcases hparse false with hsame | ⟨e, e', he, -⟩
  · exact hsame
  · have hparses : (parse "b2 = 3\n\n 0b2-max(1,23)" false).result.toOption.isSome = true := by
      decide +kernel
    rw [he] at hparses
    cases hparses

end Abacus
