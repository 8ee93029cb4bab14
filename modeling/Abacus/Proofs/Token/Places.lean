import Mathlib.Data.List.Chain
import Mathlib.Data.List.Induction
import Abacus.Proofs.Token.Scanning

/-!
# Tokens cover a text and know where they are

What `tokenize` makes of a source is a tiling of the trimmed text: runs of spaces, and between them the
texts of the tokens, each in its place (`Tiles`). The scan keeps what is in front of it, so the place it
has come to is the one behind that text: as many bytes, and the line and column that one reads off it
(`Place.position_after`).

No two line ends stand side by side, since the blanks behind a line end belong to it, and none stands at
an end, since these are trimmed. With that, `tokenize_covers` says of a tiling what there is to say.
-/
namespace Abacus

open Lexeme

namespace Text

/-! ## Reading a place off a text -/

/-- How many bytes a text has. -/
def bytes (text : List Char) : Nat :=
  (String.ofList text).utf8ByteSize

theorem bytes_append (front back : List Char) : bytes (front ++ back) = bytes front + bytes back := by
  rw [bytes, String.ofList_append, String.utf8ByteSize_append, bytes, bytes]

theorem bytes_singleton (c : Char) : bytes [c] = c.utf8Size :=
  String.utf8ByteSize_singleton

theorem bytes_pos {text : List Char} (h : text ≠ []) : 0 < bytes text := by
  obtain ⟨c, rest, rfl⟩ := List.exists_cons_of_ne_nil h
  rw [← List.singleton_append, bytes_append, bytes_singleton]
  exact Nat.lt_of_lt_of_le c.utf8Size_pos (Nat.le_add_right _ _)

/-- How many lines a text ends, and how many characters it has behind the last line end. -/
def Position.behind (text : List Char) : Position :=
  { line := text.count '\n', column := (text.reverse.takeWhile (· ≠ '\n')).length }

theorem Position.behind_concat (text : List Char) (c : Char) :
    Position.behind (text ++ [c]) = (Position.behind text).next c := by
  by_cases hc : c = '\n'
  · simp [behind, next, hc]
  · simp [behind, next, hc]

theorem Place.after_append (p : Place) (front back : List Char) :
    p.after (front ++ back) = (p.after front).after back :=
  List.foldl_append

theorem Place.offset_after (p : Place) (text : List Char) :
    (p.after text).offset = p.offset + bytes text := by
  induction text generalizing p with
  | nil => rfl
  | cons c rest ih =>
    rw [← List.singleton_append, bytes_append, bytes_singleton, ← Nat.add_assoc]
    exact ih (p.next c)

theorem Place.position_after (text : List Char) :
    (origin.after text).position = Position.behind text := by
  induction text using List.reverseRecOn with
  | nil => rfl
  | append_singleton text c ih => rw [after_append, Position.behind_concat, ← ih]; rfl

theorem Place.origin_after (text : List Char) :
    origin.after text = { offset := bytes text, position := .behind text } := by
  rw [← position_after, ← Nat.zero_add (bytes text)]
  exact congrArg (Place.mk · _) (offset_after origin text)

/-! ## Trimmed texts -/

theorem trimEnd_isPrefix (text : List Char) : trimEnd text <+: text := by
  rw [trimEnd, ← List.reverse_suffix, List.reverse_reverse]
  exact List.dropWhile_suffix _

theorem takeWhile_isBlank_trim (text : List Char) : (trim text).takeWhile isBlank = [] := by
  have hhead := List.head?_dropWhile_not isBlank text
  obtain ⟨tail, htail⟩ := trimEnd_isPrefix (text.dropWhile isBlank)
  rw [trim]
  cases hend : trimEnd (text.dropWhile isBlank) with
  | nil => rfl
  | cons c rest =>
    rw [← htail, hend] at hhead
    exact List.takeWhile_cons_of_neg (by simpa using hhead)

theorem isBlank_of_getLast?_trim {text : List Char} {c : Char} (h : (trim text).getLast? = some c) :
    isBlank c = false := by
  have hhead := List.head?_dropWhile_not isBlank (text.dropWhile isBlank).reverse
  rw [trim, trimEnd, List.getLast?_reverse] at h
  rwa [h] at hhead

theorem isBlank_of_isSpace {c : Char} (h : isSpace c = true) : isBlank c = true :=
  (Bool.and_eq_true_iff.mp h).1

end Text

open Text

/-! ## Tilings -/

/-- A token of this kind is written like this. -/
def TokenKind.Written (text : List Char) : TokenKind → Prop
  | .number _ source => source = String.ofList text
  | .name x => x = String.ofList text
  | .newline => ∃ blanks, text = '\n' :: blanks ∧ ∀ c ∈ blanks, isBlank c = true
  | .symbol s => text = [s.char]

/-- The token has this text between these two others. -/
structure Token.At (t : Token) (front text back : List Char) : Prop where
  ne_nil : text ≠ []
  written : t.kind.Written text
  offset : t.offset = bytes front
  span : t.span =
    { start := .behind front, stop := .behind (front ++ text), text := String.ofList text }
  /-- A line end takes the blanks behind it. -/
  closed : t.kind = .newline → back.takeWhile isBlank = []

theorem Token.At.end_eq {t : Token} {front text back : List Char} (h : t.At front text back) :
    t.offset + t.span.text.utf8ByteSize = bytes (front ++ text) := by
  rw [h.offset, h.span, bytes_append]
  rfl

/-- Behind `front` the text consists of the texts of the tokens, with spaces around them. -/
inductive Tiles : (front text : List Char) → List Token → Prop
  | nil {front gap : List Char} (hgap : ∀ c ∈ gap, isSpace c = true) : Tiles front gap []
  | cons {front gap text back : List Char} {t : Token} {tokens : List Token}
      (hgap : ∀ c ∈ gap, isSpace c = true) (ht : t.At (front ++ gap) text back)
      (h : Tiles (front ++ gap ++ text) back tokens) :
      Tiles front (gap ++ (text ++ back)) (t :: tokens)

namespace Tiles

variable {front text gap : List Char} {tokens : List Token}

theorem spaces (h : Tiles (front ++ gap) text tokens) (hgap : ∀ c ∈ gap, isSpace c = true) :
    Tiles front (gap ++ text) tokens := by
  generalize hfront : front ++ gap = front' at h
  cases h with
  | nil hmore => exact .nil (List.forall_mem_append.mpr ⟨hgap, hmore⟩)
  | cons hmore ht hrest =>
    subst hfront
    rw [List.append_assoc front] at ht hrest
    rw [← List.append_assoc gap]
    exact .cons (List.forall_mem_append.mpr ⟨hgap, hmore⟩) ht hrest

/-- A token right at the front. -/
theorem token {piece back : List Char} {t : Token} (ht : t.At front piece back)
    (h : Tiles (front ++ piece) back tokens) : Tiles front (piece ++ back) (t :: tokens) := by
  rw [← List.append_nil front] at ht h
  exact .cons (List.forall_mem_nil _) ht h

/-- Every token has its text somewhere. -/
theorem exists_at (h : Tiles front text tokens) : ∀ t ∈ tokens, ∃ gap piece back,
    text = gap ++ (piece ++ back) ∧ t.At (front ++ gap) piece back := by
  induction h with
  | nil => exact nofun
  | @cons front gap piece back t tokens _ ht _ ih =>
    refine List.forall_mem_cons.mpr ⟨⟨gap, piece, back, rfl, ht⟩, fun u hu => ?_⟩
    obtain ⟨gap', piece', back', heq, hat⟩ := ih u hu
    refine ⟨gap ++ (piece ++ gap'), piece', back', ?_, ?_⟩
    · rw [heq, List.append_assoc, List.append_assoc]
    · rwa [List.append_assoc, List.append_assoc] at hat

theorem le_offset (h : Tiles front text tokens) {t : Token} (ht : t ∈ tokens) :
    bytes front ≤ t.offset := by
  obtain ⟨gap, piece, back, -, hat⟩ := h.exists_at t ht
  rw [hat.offset, bytes_append]
  exact Nat.le_add_right _ _

/-- Every token ends before the next one starts. -/
theorem pairwise (h : Tiles front text tokens) :
    tokens.Pairwise fun t u => t.offset + t.span.text.utf8ByteSize ≤ u.offset := by
  induction h with
  | nil => exact .nil
  | cons _ ht hrest ih =>
    refine .cons (fun u hu => ?_) ih
    rw [ht.end_eq]
    exact hrest.le_offset hu

/-- What is in no token is a space. -/
theorem isSpace_of_outside (h : Tiles front text tokens) {before after : List Char} {c : Char}
    (htext : text = before ++ c :: after)
    (hout : ∀ t ∈ tokens, bytes (front ++ before) < t.offset ∨
      t.offset + t.span.text.utf8ByteSize ≤ bytes (front ++ before)) : isSpace c = true := by
  induction h generalizing before with
  | nil hgap => exact hgap c (htext ▸ List.mem_append_right _ List.mem_cons_self)
  | @cons front gap piece back t tokens hgap ht _ ih =>
    obtain ⟨houtside, hrest⟩ := List.forall_mem_cons.mp hout
    -- the character is in the gap, in the token or behind it
    rcases List.append_eq_append_iff.mp htext with ⟨inside, rfl, hback⟩ | ⟨tail, rfl, htail⟩
    · rcases List.append_eq_append_iff.mp hback with ⟨inside', rfl, hback'⟩ | ⟨tail, hpiece, htail⟩
      · refine ih hback' ?_
        simpa only [List.append_assoc] using hrest
      · cases tail with
        | nil =>
          obtain rfl : piece = inside := hpiece.trans (List.append_nil _)
          rw [← List.append_nil (front ++ (gap ++ piece)), ← List.append_assoc front] at hrest
          have hback : back = [] ++ c :: after := htail.symm
          exact ih hback hrest
        | cons d tail =>
          have hlong := bytes_pos (List.cons_ne_nil d tail)
          rw [ht.end_eq, ht.offset, hpiece] at houtside
          simp only [bytes_append] at houtside
          omega
    · cases tail with
      | nil =>
        have hlong := bytes_pos ht.ne_nil
        rw [ht.end_eq, ht.offset] at houtside
        simp only [List.append_nil, bytes_append] at houtside
        omega
      | cons d tail =>
        obtain ⟨rfl, -⟩ := List.cons.inj htail
        exact hgap c (List.mem_append_right _ List.mem_cons_self)

/-! ### Line ends -/

/-- A text that starts with no blank starts with no line end. -/
theorem head_ne_newline (h : Tiles front text tokens) (hstart : text.takeWhile isBlank = []) :
    ∀ t, tokens.head? = some t → t.kind ≠ .newline := by
  cases h with
  | nil => exact nofun
  | @cons _ gap piece back t tokens hgap ht _ =>
    rintro _ ⟨⟩ hkind
    have hwritten := ht.written
    rw [hkind] at hwritten
    obtain ⟨blanks, rfl, -⟩ := hwritten
    cases gap with
    | nil =>
      rw [List.nil_append, List.cons_append, List.takeWhile_cons_of_pos rfl] at hstart
      cases hstart
    | cons c gap =>
      have hc := isBlank_of_isSpace (hgap c List.mem_cons_self)
      rw [List.cons_append, List.takeWhile_cons_of_pos hc] at hstart
      cases hstart

theorem isChain (h : Tiles front text tokens) :
    tokens.IsChain fun t u => ¬(t.kind = .newline ∧ u.kind = .newline) := by
  induction h with
  | nil => exact .nil
  | cons _ ht hrest ih =>
    refine List.isChain_cons.mpr ⟨fun u hu hkinds => ?_, ih⟩
    exact hrest.head_ne_newline (ht.closed hkinds.1) u hu hkinds.2

/-- A text that ends with no blank ends with no line end. -/
theorem last_ne_newline (h : Tiles front text tokens)
    (hend : ∀ c, text.getLast? = some c → isBlank c = false) :
    ∀ t, tokens.getLast? = some t → t.kind ≠ .newline := by
  induction h with
  | nil => exact nofun
  | @cons front gap piece back t tokens hgap ht hrest ih =>
    cases hrest with
    | nil hblanks =>
      intro t' ht' hkind
      obtain rfl : t = t' := Option.some.inj ht'
      have hwritten := ht.written
      rw [hkind] at hwritten
      obtain ⟨blanks, rfl, hblank⟩ := hwritten
      -- nothing is left behind the line end, so the text ends with a blank
      obtain rfl : back = [] := by
        cases back with
        | nil => rfl
        | cons c back =>
          have hclosed := ht.closed hkind
          rw [List.takeWhile_cons_of_pos (isBlank_of_isSpace (hblanks c List.mem_cons_self))]
            at hclosed
          cases hclosed
      have hlast := List.getLast_mem (List.cons_ne_nil '\n' blanks)
      have hnot := hend _ (by
        rw [List.append_nil, List.getLast?_append_of_ne_nil _ (List.cons_ne_nil _ _)]
        exact List.getLast?_eq_some_getLast (List.cons_ne_nil _ _))
      rcases List.mem_cons.mp hlast with heq | hmem
      · rw [heq] at hnot
        cases hnot
      · exact absurd (hblank _ hmem) (by rw [hnot]; exact Bool.false_ne_true)
    | @cons _ gap' piece' back' u tokens hgap' hu hrest' =>
      intro t' ht'
      rw [List.getLast?_cons_cons] at ht'
      refine ih (fun c hc => hend c ?_) t' ht'
      have hne : gap' ++ (piece' ++ back') ≠ [] := by simp [hu.ne_nil]
      rwa [List.getLast?_append_of_ne_nil _ (by simp [hne]), List.getLast?_append_of_ne_nil _ hne]

end Tiles

/-! ## Reading tiles a text -/

namespace Token

variable {lexeme : Lexeme} {piece rest : List Char} {place : Place}

theorem eq_space_of_kind? (h : kind? lexeme piece place = .ok none) : lexeme = .space := by
  cases lexeme with
  | space => rfl
  | decimal =>
    simp only [kind?] at h
    split at h <;> cases h
  | _ => cases h

theorem eq_newline_of_kind? (h : kind? lexeme piece place = .ok (some .newline)) :
    lexeme = .newline := by
  cases lexeme with
  | newline => rfl
  | decimal =>
    simp only [kind?] at h
    split at h <;> cases h
  | _ => cases h

theorem written_of_kind? {kind : TokenKind} (hcuts : Cuts (piece ++ rest) lexeme piece)
    (hkind : kind? lexeme piece place = .ok (some kind)) : kind.Written piece := by
  cases lexeme with
  | newline =>
    cases hkind
    exact hcuts.newline_inv.1
  | space => cases hkind
  | symbol s =>
    cases hkind
    exact hcuts.symbol_inv
  | decimal =>
    simp only [kind?] at hkind
    split at hkind <;> cases hkind
    rfl
  | radix | name =>
    cases hkind
    rfl

theorem scan_tiles {text : List Char} {tokens : List Token} (h : scan place 0 text = .ok tokens) :
    ∀ front, place = Place.origin.after front → Tiles front text tokens := by
  induction place, text, tokens, h using scan_induct with
  | nil => exact fun _ _ => .nil nofun
  | blanks hcuts hkind ih =>
    rintro front rfl
    obtain rfl := eq_space_of_kind? hkind
    exact (ih (front ++ _) (Place.after_append ..).symm).spaces hcuts.isSpace_of_mem
  | @token place lexeme piece rest kind tokens _ _ hcuts hkind ih =>
    rintro front rfl
    have hat : Token.At
        { kind, span := (Place.origin.after front).span piece,
          offset := (Place.origin.after front).offset } front piece rest := by
      refine ⟨hcuts.ne_nil, written_of_kind? hcuts hkind, ?_, ?_, ?_⟩
      · rw [Place.offset_after]
        exact Nat.zero_add _
      · rw [Place.span, ← Place.after_append, Place.position_after, Place.position_after]
      · rintro ⟨⟩
        obtain rfl := eq_newline_of_kind? hkind
        exact hcuts.newline_inv.2
    exact .token hat (ih (front ++ piece) (Place.after_append ..).symm)

end Token

theorem tiles_of_tokenize {source : String} {tokens : List Token} (h : tokenize source = .ok tokens) :
    Tiles [] (trim source.toList) tokens :=
  Token.scan_tiles h [] rfl

/-- **Tokens cover the source and know where they are.** Let a source be read, and be `s` without the
blanks around it.

* Every token has its text somewhere in `s`, and knows how many bytes are in front of it and the lines
  and columns where it starts and ends. A number keeps its text as its source, a name is its text.
* Every token ends before the next one starts.
* What is in no token is a blank that ends no line.
* No line end stands at an end of `s` or behind another one. -/
theorem tokenize_covers {source : String} {tokens : List Token} (h : tokenize source = .ok tokens) :
    (∀ t ∈ tokens, ∃ front text back, trim source.toList = front ++ (text ++ back) ∧ text ≠ [] ∧
      t.offset = bytes front ∧
      t.span = { start := .behind front, stop := .behind (front ++ text), text := String.ofList text } ∧
      t.kind.Written text) ∧
    (tokens.Pairwise fun t u => t.offset + t.span.text.utf8ByteSize ≤ u.offset) ∧
    (∀ front c back, trim source.toList = front ++ c :: back →
      (∀ t ∈ tokens, bytes front < t.offset ∨ t.offset + t.span.text.utf8ByteSize ≤ bytes front) →
        isSpace c = true) ∧
    (∀ t, tokens.head? = some t ∨ tokens.getLast? = some t → t.kind ≠ .newline) ∧
    tokens.IsChain fun t u => ¬(t.kind = .newline ∧ u.kind = .newline) := by
  have htiles := tiles_of_tokenize h
  refine ⟨fun t ht => ?_, htiles.pairwise, fun front c back heq hout => ?_, fun t ht => ?_,
    htiles.isChain⟩
  · obtain ⟨front, text, back, heq, hat⟩ := htiles.exists_at t ht
    exact ⟨front, text, back, heq, hat.ne_nil, hat.offset, hat.span, hat.written⟩
  · exact htiles.isSpace_of_outside heq hout
  · rcases ht with hhead | hlast
    · exact htiles.head_ne_newline (takeWhile_isBlank_trim _) t hhead
    · exact htiles.last_ne_newline (fun c => isBlank_of_getLast?_trim) t hlast

/-- Blanks of two and three bytes: the line end has five bytes, the number stands in column two. -/
theorem tokenize_covers_wideBlanks :
    ∃ tokens, tokenize "\u00a0x\u2003+\n\u3000 2" = .ok tokens ∧
      tokens.map Token.offset = [0, 4, 5, 10] ∧
      (tokens.map fun t => (t.span.start.line, t.span.start.column)) =
        [(0, 0), (0, 2), (0, 3), (1, 2)] ∧
      (tokens.Pairwise fun t u => t.offset + t.span.text.utf8ByteSize ≤ u.offset) ∧
      tokens.IsChain fun t u => ¬(t.kind = .newline ∧ u.kind = .newline) := by
  have hread : ((tokenize "\u00a0x\u2003+\n\u3000 2").toOption.map fun tokens =>
      (tokens.map Token.offset, tokens.map fun t => (t.span.start.line, t.span.start.column))) =
        some ([0, 4, 5, 10], [(0, 0), (0, 2), (0, 3), (1, 2)]) := by
    decide +kernel
  obtain ⟨tokens, htokens, hplaces⟩ := Option.map_eq_some_iff.mp hread
  have h := ok_of_toOption htokens
  obtain ⟨-, hpairwise, -, -, hchain⟩ := tokenize_covers h
  exact ⟨tokens, h, congrArg Prod.fst hplaces, congrArg Prod.snd hplaces, hpairwise, hchain⟩

end Abacus
