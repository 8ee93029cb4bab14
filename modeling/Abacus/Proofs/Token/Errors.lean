import Abacus.Proofs.Token.Lookahead

/-!
# Where reading stops

`tokenize` gives up the tokens it has when it comes to an error. `Token.scanLog` scans in the same
way and keeps them. How far a scan gets, and with which tokens, is `Token.Reaches`: one lexeme
behind the other is cut off the front of a text, and what is left is the tail. Every text is reached
through up to its end or to a character that starts no lexeme (`Token.exists_reaches`), so no error
is about anything else.

No lexeme goes on into the tail, and so the tail can be exchanged (`Token.Reaches.steady`). With no
tail at all this says what the text in front of an error is read as. Blanks at its end are trimmed,
which only takes a line end away (`Token.Reaches.trimEnd`).
-/
namespace Abacus

open Lexeme Text

namespace Token

/-! ## A scan that keeps its tokens -/

/-- The token of a lexeme, if it gives one. -/
def made (kind : Option TokenKind) (place : Place) (piece : List Char) : List Token :=
  (kind.map fun kind => { kind, span := place.span piece, offset := place.offset }).toList

/-- The tokens of a text up to where the scan stops, and the error that stops it. -/
def scanLog (place : Place) (skip : Nat) : List Char → List Token × Option LexError
  | [] => ([], none)
  | c :: rest =>
    match skip with
    | skip + 1 => scanLog (place.next c) skip rest
    | 0 =>
      match lexeme? (c :: rest) with
      | none => ([], some (.unexpectedCharacter c place))
      | some (lexeme, piece) =>
        match kind? lexeme piece place with
        | .error e => ([], some e)
        | .ok kind =>
          let log := scanLog (place.next c) (piece.length - 1) rest
          (made kind place piece ++ log.1, log.2)

theorem scan_eq_scanLog (place : Place) (skip : Nat) (text : List Char) :
    scan place skip text =
      match scanLog place skip text with
      | (tokens, none) => .ok tokens
      | (_, some e) => .error e := by
  induction text generalizing place skip with
  | nil => rfl
  | cons c rest ih =>
    cases skip with
    | succ skip => exact ih (place.next c) skip
    | zero =>
      simp only [scan, scanLog]
      cases lexeme? (c :: rest) with
      | none => rfl
      | some cut =>
        obtain ⟨lexeme, piece⟩ := cut
        cases hkind : kind? lexeme piece place with
        | error e => simp only [hkind]
        | ok kind =>
          have hrest := ih (place.next c) (piece.length - 1)
          rcases hlog : scanLog (place.next c) (piece.length - 1) rest with ⟨tokens, stop⟩
          rw [hlog] at hrest
          cases kind <;> cases stop <;> simp only [hkind, hlog, hrest] <;> rfl

theorem scanLog_skip (place : Place) (piece rest : List Char) :
    scanLog place piece.length (piece ++ rest) = scanLog (place.after piece) 0 rest := by
  induction piece generalizing place with
  | nil => cases rest <;> rfl
  | cons c piece ih => exact ih (place.next c)

theorem scanLog_lexeme {place : Place} {lexeme : Lexeme} {piece rest : List Char}
    {kind : Option TokenKind} (hlexeme : lexeme? (piece ++ rest) = some (lexeme, piece))
    (hkind : kind? lexeme piece place = .ok kind) :
    scanLog place 0 (piece ++ rest) =
      (made kind place piece ++ (scanLog (place.after piece) 0 rest).1,
        (scanLog (place.after piece) 0 rest).2) := by
  obtain ⟨c, tail, rfl⟩ := List.exists_cons_of_ne_nil (ne_nil_of_lexeme? hlexeme)
  have hskip : scanLog (place.next c) tail.length (tail ++ rest) =
      scanLog (place.after (c :: tail)) 0 rest :=
    scanLog_skip (place.next c) tail rest
  rw [List.cons_append] at hlexeme ⊢
  simp only [scanLog, hlexeme, hkind, List.length_cons, Nat.add_sub_cancel, hskip]

/-! ## How far a scan gets -/

/-- From this place on, lexemes make up the text in front of the tail, and give these tokens. -/
inductive Reaches : Place → (front tail : List Char) → List Token → Prop
  | nil {place : Place} {tail : List Char} : Reaches place [] tail []
  | lexeme {place : Place} {lexeme : Lexeme} {piece front tail : List Char}
      {kind : Option TokenKind} {tokens : List Token}
      (hlexeme : lexeme? (piece ++ (front ++ tail)) = some (lexeme, piece))
      (hkind : kind? lexeme piece place = .ok kind)
      (h : Reaches (place.after piece) front tail tokens) :
      Reaches place (piece ++ front) tail (made kind place piece ++ tokens)

/-- Every scan gets to the end of the text or to a character that starts no lexeme. -/
theorem exists_reaches (place : Place) (text : List Char) :
    ∃ front tail tokens, text = front ++ tail ∧ Reaches place front tail tokens ∧
      (tail = [] ∨ ∃ c rest, tail = c :: rest ∧ Unexpected c) := by
  generalize hn : text.length = n
  induction n using Nat.strongRecOn generalizing place text with
  | _ n ih =>
    cases htext : text with
    | nil => exact ⟨[], [], [], rfl, .nil, .inl rfl⟩
    | cons c rest =>
      cases hlexeme : lexeme? (c :: rest) with
      | none =>
        have hc := lexeme?_cons_eq_none.mp hlexeme
        exact ⟨[], c :: rest, [], rfl, .nil, .inr ⟨c, rest, rfl, hc⟩⟩
      | some cut =>
        obtain ⟨lexeme, piece⟩ := cut
        have hcuts := Cuts.of_lexeme? hlexeme
        obtain ⟨others, heq⟩ := hcuts.isPrefix
        obtain ⟨kind, hkind⟩ := exists_kind? hcuts place
        have hshorter : others.length < n := by
          have hpos := List.length_pos_iff.mpr hcuts.ne_nil
          rw [← hn, htext, ← heq, List.length_append]
          omega
        obtain ⟨front, tail, tokens, rfl, hreaches, htail⟩ :=
          ih _ hshorter (place.after piece) others rfl
        rw [← heq] at hlexeme ⊢
        exact ⟨piece ++ front, tail, _, (List.append_assoc ..).symm,
          .lexeme hlexeme hkind hreaches, htail⟩

/-- The last of these tokens is a number, and ends at this offset. -/
def EndsInNumber (tokens : List Token) (offset : Nat) : Prop :=
  ∃ t value source, tokens.getLast? = some t ∧ t.kind = .number value source ∧
    t.offset + t.span.text.utf8ByteSize = offset

theorem EndsInNumber.append {tokens : List Token} {offset : Nat} (h : EndsInNumber tokens offset)
    (before : List Token) : EndsInNumber (before ++ tokens) offset := by
  obtain ⟨t, value, source, hlast, hkind, hend⟩ := h
  refine ⟨t, value, source, ?_, hkind, hend⟩
  rw [List.getLast?_append, hlast, Option.some_or]

theorem endsInNumber_made {place : Place} {piece : List Char} {kind : Option TokenKind}
    (hkind : kind? .decimal piece place = .ok kind) :
    EndsInNumber (made kind place piece) (place.offset + bytes piece) := by
  simp only [kind?] at hkind
  split at hkind
  next value _ =>
    cases hkind
    exact ⟨_, value, _, rfl, rfl, rfl⟩
  next => cases hkind

namespace Reaches

variable {place : Place} {front tail : List Char} {tokens : List Token}

theorem scanLog_eq (h : Reaches place front tail tokens) :
    scanLog place 0 (front ++ tail) =
      (tokens ++ (scanLog (place.after front) 0 tail).1, (scanLog (place.after front) 0 tail).2) := by
  induction h with
  | nil => rfl
  | lexeme hlexeme hkind h ih =>
    rw [List.append_assoc, scanLog_lexeme hlexeme hkind, ih, Place.after_append, List.append_assoc]

theorem scan_eq_ok (h : Reaches place front [] tokens) : scan place 0 front = .ok tokens := by
  have hlog := h.scanLog_eq
  rw [List.append_nil] at hlog
  rw [scan_eq_scanLog, hlog]
  simp only [scanLog, List.append_nil]

theorem scanLog_eq_error {c : Char} {rest : List Char} (h : Reaches place front (c :: rest) tokens)
    (hc : Unexpected c) :
    scanLog place 0 (front ++ c :: rest) =
      (tokens, some (.unexpectedCharacter c (place.after front))) := by
  rw [h.scanLog_eq]
  simp only [scanLog, lexeme?_cons_eq_none.mpr hc, List.append_nil]

theorem tokens_eq_nil (h : Reaches place front tail tokens) (hfront : front = []) : tokens = [] := by
  cases h with
  | nil => rfl
  | lexeme hlexeme =>
    exact absurd (List.append_eq_nil_iff.mp hfront).1 (ne_nil_of_lexeme? hlexeme)

/-- The tail can end in front of its first character, or go on behind it in another way. -/
theorem steady {c : Char} {rest tail' : List Char} (h : Reaches place front (c :: rest) tokens)
    (hc : Breaks c) (htail : HeadedBy c tail')
    (hfree : EndsInNumber tokens (place.offset + bytes front) → c = '.' ∨ c = 'E' → tail' = []) :
    Reaches place front tail' tokens := by
  generalize htail₀ : c :: rest = tail at h
  induction h with
  | nil => exact .nil
  | @lexeme place lexeme piece front tail kind tokens hlexeme hkind h ih =>
    subst htail₀
    have hbytes : place.offset + bytes (piece ++ front) =
        (place.after piece).offset + bytes front := by
      rw [bytes_append, Place.offset_after, Nat.add_assoc]
    refine .lexeme ?_ hkind (ih (fun hends => hfree ?_) rfl)
    · rw [← List.append_assoc] at hlexeme ⊢
      refine lexeme?_steady hc htail hlexeme (by simp) fun hdecimal hfull => hfree ?_
      -- nothing is left behind the number
      have hfront : front = [] := by
        simpa only [List.length_append, Nat.left_eq_add, List.length_eq_zero_iff] using hfull
      obtain rfl := h.tokens_eq_nil hfront
      subst hdecimal
      rw [hfront, List.append_nil, List.append_nil]
      exact endsInNumber_made hkind
    · rw [hbytes]
      exact hends.append _

end Reaches
end Token

/-! ## Blanks at the end -/

namespace Text

theorem trimEnd_append (front back : List Char) :
    trimEnd (front ++ back) = if trimEnd back = [] then trimEnd front else front ++ trimEnd back := by
  simp only [trimEnd, List.reverse_append, List.dropWhile_append, List.reverse_eq_nil_iff,
    List.isEmpty_iff]
  split
  · rfl
  · rw [List.reverse_append, List.reverse_reverse]

theorem trimEnd_eq_nil_iff {text : List Char} :
    trimEnd text = [] ↔ ∀ c ∈ text, isBlank c = true := by
  simp only [trimEnd, List.reverse_eq_nil_iff, List.dropWhile_eq_nil_iff, List.mem_reverse]

theorem trimEnd_eq_self {text : List Char} (h : ∀ c ∈ text, isBlank c = false) :
    trimEnd text = text := by
  cases htext : text.reverse with
  | nil => rw [List.reverse_eq_nil_iff.mp htext]; rfl
  | cons c rest =>
    have hc : isBlank c = false := h c (List.mem_reverse.mp (htext ▸ List.mem_cons_self))
    rw [trimEnd, htext, List.dropWhile_cons_of_neg (by rw [hc]; exact Bool.false_ne_true), ← htext,
      List.reverse_reverse]

/-- What stands at the front of a trimmed text has no blanks at its own front. -/
theorem trim_of_isPrefix {text front : List Char} (h : front <+: trim text) :
    trim front = trimEnd front := by
  have hstart := takeWhile_isBlank_trim text
  obtain ⟨back, hback⟩ := h
  rw [trim]
  cases front with
  | nil => rfl
  | cons c front =>
    have hc : ¬isBlank c = true := by
      intro hc
      rw [← hback, List.cons_append, List.takeWhile_cons_of_pos hc] at hstart
      cases hstart
    rw [List.dropWhile_cons_of_neg hc]

theorem exists_trimEnd_append (text : List Char) :
    ∃ blanks, text = trimEnd text ++ blanks ∧ ∀ c ∈ blanks, isBlank c = true := by
  refine ⟨(text.reverse.takeWhile isBlank).reverse, ?_, fun c hc => ?_⟩
  · rw [trimEnd, ← List.reverse_append, List.takeWhile_append_dropWhile, List.reverse_reverse]
  · exact List.all_eq_true.mp List.all_takeWhile c (List.mem_reverse.mp hc)

end Text

/-- A lexeme is made of blanks, or has no blank in it. -/
theorem Cuts.isBlank_or {text piece : List Char} {lexeme : Lexeme} (h : Cuts text lexeme piece) :
    (lexeme = .newline ∨ lexeme = .space) ∧ (∀ c ∈ piece, isBlank c = true) ∨
      ∀ c ∈ piece, isBlank c = false := by
  cases h with
  | newline rest =>
    exact .inl ⟨.inl rfl, List.forall_mem_cons.mpr ⟨rfl, List.all_eq_true.mp List.all_takeWhile⟩⟩
  | space rest hc =>
    refine .inl ⟨.inr rfl, fun d hd => isBlank_of_isSpace ?_⟩
    exact (Cuts.space rest hc).isSpace_of_mem d hd
  | symbol rest hc =>
    rw [← Symbol.char_of_ofChar? hc]
    exact .inr (List.forall_mem_singleton.mpr (Symbol.isBlank_char _))
  | radix hmark hdigits hne =>
    rw [← hdigits] at hne ⊢
    exact .inr (Numeral.radix hmark (List.all_eq_true.mp List.all_takeWhile) hne).isBlank_of_mem
  | decimal rest hc =>
    obtain ⟨value, hvalue⟩ := exists_unsigned?_decimalText rest hc
    exact .inr (Numeral.decimal rest hc hvalue).isBlank_of_mem
  | name rest hc =>
    refine .inr (List.forall_mem_cons.mpr ⟨?_, fun d hd => ?_⟩)
    · exact isBlank_of_isNameChar (isNameChar_of_isLower hc)
    · exact isBlank_of_isNameChar (List.all_eq_true.mp List.all_takeWhile d hd)

/-- The blanks at the end of a text are those behind its first lexeme, or that is blank as well. -/
theorem Cuts.trimEnd_append {text piece : List Char} {lexeme : Lexeme} (h : Cuts text lexeme piece)
    (front : List Char) :
    (∀ c ∈ piece ++ front, isBlank c = true) ∨ trimEnd (piece ++ front) = piece ++ trimEnd front := by
  rw [Text.trimEnd_append]
  split
  next hnone =>
    rcases h.isBlank_or with ⟨-, hall⟩ | hsolid
    · exact .inl (List.forall_mem_append.mpr ⟨hall, trimEnd_eq_nil_iff.mp hnone⟩)
    · rw [hnone, trimEnd_eq_self hsolid, List.append_nil]
      exact .inr rfl
  next => exact .inr rfl

theorem lexeme?_trimEnd {piece front : List Char} {lexeme : Lexeme}
    (h : lexeme? (piece ++ front) = some (lexeme, piece)) :
    lexeme? (piece ++ trimEnd front) = some (lexeme, piece) := by
  obtain ⟨blanks, hfront, hblanks⟩ := exists_trimEnd_append front
  cases blanks with
  | nil =>
    rw [List.append_nil] at hfront
    rwa [← hfront]
  | cons c blanks =>
    rw [hfront, ← List.append_assoc] at h
    have hlonger : piece.length ≤ (piece ++ trimEnd front).length := by simp
    have hsame := lexeme?_steady (.of_isBlank (hblanks c List.mem_cons_self)) .nil h hlonger
      fun _ _ _ => rfl
    rwa [List.append_nil] at hsame

namespace Token.Reaches

variable {place : Place} {front tail : List Char} {tokens : List Token}

/-- Blanks are read as nothing or as one line end. -/
theorem tokens_of_isBlank (h : Reaches place front tail tokens) (htail : tail = [])
    (hblank : ∀ c ∈ front, isBlank c = true) :
    tokens = [] ∨ ∃ t : Token, t.kind = .newline ∧ tokens = [t] := by
  induction h with
  | nil => exact .inl rfl
  | @lexeme place lexeme piece front tail kind tokens hlexeme hkind h ih =>
    subst htail
    obtain ⟨hpiece, hfront⟩ := List.forall_mem_append.mp hblank
    have hcuts := Cuts.of_lexeme? hlexeme
    rcases hcuts.isBlank_or with ⟨rfl | rfl, -⟩ | hsolid
    · -- all the blanks behind a line end go with it
      rw [List.append_nil] at hcuts
      have hnone := hcuts.newline_inv.2
      rw [List.takeWhile_eq_self_iff.mpr hfront] at hnone
      obtain rfl := h.tokens_eq_nil hnone
      cases hkind
      exact .inr ⟨_, rfl, rfl⟩
    · cases hkind
      exact ih rfl hfront
    · obtain ⟨c, rest, rfl⟩ := List.exists_cons_of_ne_nil hcuts.ne_nil
      have hc := hpiece c List.mem_cons_self
      rw [hsolid c List.mem_cons_self] at hc
      cases hc

/-- Without the blanks at its end a text is read as the same tokens, up to a line end behind. -/
theorem trimEnd (h : Reaches place front tail tokens) (htail : tail = []) :
    ∃ tokens', Reaches place (trimEnd front) [] tokens' ∧
      (tokens = tokens' ∨ ∃ t : Token, t.kind = .newline ∧ tokens = tokens' ++ [t]) := by
  induction h with
  | nil => exact ⟨[], .nil, .inl rfl⟩
  | @lexeme place lexeme piece front tail kind tokens hlexeme hkind h ih =>
    subst htail
    rcases (Cuts.of_lexeme? hlexeme).trimEnd_append front with hblank | htrim
    · have hnone := (h.lexeme hlexeme hkind).tokens_of_isBlank rfl hblank
      rw [trimEnd_eq_nil_iff.mpr hblank]
      exact ⟨[], .nil, hnone⟩
    · obtain ⟨tokens', hreaches, hor⟩ := ih rfl
      rw [List.append_nil] at hlexeme
      have hkept := lexeme?_trimEnd hlexeme
      rw [← List.append_nil (Text.trimEnd front)] at hkept
      rw [htrim]
      refine ⟨made kind place piece ++ tokens', hreaches.lexeme hkept hkind, ?_⟩
      rcases hor with rfl | ⟨t, ht, rfl⟩
      · exact .inl rfl
      · exact .inr ⟨t, ht, (List.append_assoc ..).symm⟩

end Token.Reaches

/-! ## Errors -/

/-- A source with the blanks around it, of which a scan gets to a character that starts no lexeme. -/
theorem Token.Reaches.tokenize_eq_error {source : String} {front rest : List Char} {c : Char}
    {tokens : List Token} (h : Reaches .origin front (c :: rest) tokens) (hc : Unexpected c)
    (hsource : trim source.toList = front ++ c :: rest) :
    scanLog .origin 0 (trim source.toList) =
        (tokens, some (.unexpectedCharacter c
          { offset := bytes front, position := .behind front })) ∧
      tokenize source =
        .error (.unexpectedCharacter c { offset := bytes front, position := .behind front }) := by
  have hlog := h.scanLog_eq_error hc
  rw [← hsource, Place.origin_after] at hlog
  refine ⟨hlog, ?_⟩
  rw [tokenize, scan_eq_scanLog, hlog]

/-- **Errors are local.** Let reading a source fail, and let `s` be the source without the blanks
around it. Then `s` has a character that starts no lexeme, and the error names it and its place: how
many bytes stand in front of it, in which line and in which column.

* The text in front of it, read by itself, gives the tokens that the scan had by then, but for a
  line end behind them.
* Every source that starts in the same way, up to this character, fails with the same error. The
  point and the `E` right behind a number are exceptions, since digits behind them make them a part
  of it. -/
theorem tokenize_error_local {source : String} {e : LexError} (h : tokenize source = .error e) :
    ∃ front c rest tokens, trim source.toList = front ++ c :: rest ∧ Unexpected c ∧
      e = .unexpectedCharacter c { offset := bytes front, position := .behind front } ∧
      Token.scanLog .origin 0 (trim source.toList) = (tokens, some e) ∧
      (∃ tokens', tokenize (String.ofList front) = .ok tokens' ∧
        (tokens = tokens' ∨ ∃ t : Token, t.kind = .newline ∧ tokens = tokens' ++ [t])) ∧
      (¬((c = '.' ∨ c = 'E') ∧ Token.EndsInNumber tokens (bytes front)) →
        ∀ source' : String, front ++ [c] <+: trim source'.toList → tokenize source' = .error e) := by
  obtain ⟨front, tail, tokens, hsource, hreaches, htail⟩ :=
    Token.exists_reaches .origin (trim source.toList)
  rcases htail with rfl | ⟨c, rest, rfl, hc⟩
  · rw [tokenize, hsource, List.append_nil, hreaches.scan_eq_ok] at h
    cases h
  obtain ⟨hlog, herror⟩ := hreaches.tokenize_eq_error hc hsource
  obtain rfl := Except.error.inj (herror.symm.trans h)
  refine ⟨front, c, rest, tokens, hsource, hc, rfl, hlog, ?_, fun hfree source' hsource' => ?_⟩
  · have hend := hreaches.steady hc.breaks .nil fun _ _ => rfl
    obtain ⟨tokens', hreaches', hor⟩ := hend.trimEnd rfl
    refine ⟨tokens', ?_, hor⟩
    rw [tokenize, String.toList_ofList, trim_of_isPrefix ⟨c :: rest, hsource.symm⟩]
    exact hreaches'.scan_eq_ok
  · obtain ⟨rest', hrest'⟩ := hsource'
    rw [List.append_assoc, List.singleton_append] at hrest'
    have hother := hreaches.steady hc.breaks (.cons rest') fun hends hspecial =>
      absurd ⟨hspecial, Nat.zero_add (bytes front) ▸ hends⟩ hfree
    exact (hother.tokenize_eq_error hc hrest'.symm).2

/-- Blanks of two and three bytes stand in front of the error, and whatever is behind it does not
matter. -/
theorem tokenize_error_local_wideBlanks :
    ∃ e : LexError,
      e = .unexpectedCharacter '$' { offset := 10, position := { line := 1, column := 2 } } ∧
      tokenize "\u00a0x\u2003=\n\u3000 $ 1.5" = .error e ∧
      ∀ source' : String, "x\u2003=\n\u3000 $".toList <+: trim source'.toList →
        tokenize source' = .error e := by
  have h : tokenize "\u00a0x\u2003=\n\u3000 $ 1.5" =
      .error (.unexpectedCharacter '$' { offset := 10, position := { line := 1, column := 2 } }) := by
    decide +kernel
  obtain ⟨front, c, rest, tokens, hsource, -, he, -, -, hlocal⟩ := tokenize_error_local h
  obtain rfl : '$' = c := (LexError.unexpectedCharacter.inj he).1
  -- the only `$` of the source is the one that the error is about
  have htext : trim "\u00a0x\u2003=\n\u3000 $ 1.5".toList =
      "x\u2003=\n\u3000 ".toList ++ '$' :: " 1.5".toList := by
    decide +kernel
  have hsplit := htext.symm.trans hsource
  obtain ⟨rfl, -, -⟩ :=
    (List.append_cons_inj_of_notMem (by decide +kernel) (by decide +kernel)).mp hsplit
  exact ⟨_, rfl, h, hlocal fun hspecial => absurd hspecial.1 (by decide)⟩

/-- A point right behind a number is an exception indeed. -/
example : (tokenize "1.x").toOption = none ∧ (tokenize "1.5").toOption.isSome = true := by
  decide +kernel

end Abacus
