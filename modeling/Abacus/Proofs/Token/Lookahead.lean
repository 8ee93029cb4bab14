import Abacus.Proofs.Float.Writing
import Abacus.Proofs.Token.Places

/-!
# How far a lexeme looks ahead

Where a lexeme ends depends on what stands behind it, but on no more than it needs to see there. Let
a lexeme be cut off in front of a character that goes on with no digits, no small letters and no
group. Then the same lexeme is cut off if the text ends in front of that character, or goes on
behind it in another way (`lexeme?_steady`). The point and the `E` are special, since one digit
behind them makes them part of the number in front. So a text with one of them right behind a number
may be cut short, but may not go on in another way.

The parts of a decimal number come one behind the other, and being `Steady` carries over from the
parts to the whole. Every text that is cut off as a decimal number has a value, so cutting is all
that can fail (`Token.exists_kind?`), and it fails at a character that starts no lexeme
(`lexeme?_cons_eq_none`).
-/
namespace Abacus

open Lexeme Text
open Decimal (isDigit)

/-! ## Every number has a value -/

namespace Decimal

/-- Digits, a fraction or none, and an exponent or none are a number. -/
theorem exists_unsigned? {whole : List Char} (hne : whole ≠ [])
    (hwhole : ∀ c ∈ whole, isDigit c = true) (text text' : List Char) :
    ∃ value, unsigned? (whole ++ (fraction text ++ exponent text')) = some value := by
  have hbehind : (exponent text').takeWhile isDigit = [] := by
    simpa only [List.append_nil] using takeWhile_exponent_append List.takeWhile_nil text'
  have hdigits := digits?_append _ hne hwhole (takeWhile_fraction_append hbehind text)
  obtain ⟨digits, hfraction⟩ :
      ∃ digits, fraction? (fraction text ++ exponent text') = some (digits, exponent text') := by
    rcases fraction_eq text with heq | ⟨digits, heq, hne, hall⟩
    · rw [heq]
      rcases exponent_eq text' with heq' | ⟨mark, digits, heq', rfl | rfl, -⟩ <;>
        exact ⟨[], by rw [heq']; rfl⟩
    · rw [heq]
      exact ⟨digits, digits?_append _ hne hall hbehind⟩
  obtain ⟨power, hexponent⟩ : ∃ power, exponent? (exponent text') = some power := by
    rcases exponent_eq text' with heq | ⟨mark, digits, heq, hmark, hne, hall⟩
    · rw [heq]
      exact ⟨0, rfl⟩
    · have hread := digits?_append [] hne hall List.takeWhile_nil
      rw [List.append_nil] at hread
      refine ⟨naturalValue digits, ?_⟩
      rw [heq]
      -- the sign is read first, but a digit is none
      unfold exponent?
      split
      next heq' => cases heq'
      next heq' =>
        obtain ⟨-, rfl⟩ := List.cons.inj heq'
        exact absurd (hall '-' List.mem_cons_self) (by decide)
      next heq' =>
        obtain ⟨rfl, rfl⟩ := List.cons.inj heq'
        rcases hmark with rfl | rfl <;> simp only [exponent?.power?, hread] <;> rfl
  refine ⟨nearest { digits := naturalValue (whole ++ digits), power := power - digits.length }, ?_⟩
  simp only [unsigned?, hdigits, hfraction, hexponent, Option.bind_eq_bind, Option.bind_some]
  rfl

end Decimal

namespace Lexeme

theorem filter_commas {text : List Char} (h : ∀ c ∈ text, c ≠ ',') :
    text.filter (· != ',') = text :=
  List.filter_eq_self.mpr fun c hc => bne_iff_ne.mpr (h c hc)

theorem ne_comma_of_isDigit {c : Char} (h : isDigit c = true) : c ≠ ',' := by
  rintro rfl
  cases h

/-- The commas go, and the digits around them are one run. -/
theorem exists_unsigned?_decimalText {c : Char} (rest : List Char) (hc : isDigit c = true) :
    ∃ value, Decimal.unsigned? ((decimalText (c :: rest)).filter (· != ',')) = some value := by
  obtain ⟨groupsText, fractionText, exponentText, heq⟩ := decimalText_eq (c :: rest)
  have hwhole : ∀ d ∈ (c :: rest).takeWhile isDigit, isDigit d = true :=
    List.all_eq_true.mp List.all_takeWhile
  have hfraction : ∀ d ∈ fraction fractionText, d ≠ ',' := by
    rcases fraction_eq fractionText with heq | ⟨digits, heq, -, hall⟩
    · rw [heq]
      exact nofun
    · rw [heq]
      exact List.forall_mem_cons.mpr ⟨by decide, fun d hd => ne_comma_of_isDigit (hall d hd)⟩
  have hexponent : ∀ d ∈ exponent exponentText, d ≠ ',' := by
    rcases exponent_eq exponentText with heq | ⟨mark, digits, heq, hmark, -, hall⟩
    · rw [heq]
      exact nofun
    · rw [heq]
      refine List.forall_mem_cons.mpr ⟨?_, fun d hd => ne_comma_of_isDigit (hall d hd)⟩
      rcases hmark with rfl | rfl <;> decide
  rw [heq, List.filter_append, List.filter_append, List.filter_append,
    filter_commas fun d hd => ne_comma_of_isDigit (hwhole d hd), filter_commas hfraction,
    filter_commas hexponent, ← List.append_assoc]
  refine Decimal.exists_unsigned? ?_ (List.forall_mem_append.mpr ⟨hwhole, fun d hd => ?_⟩) _ _
  · rw [List.takeWhile_cons_of_pos hc]
    exact List.cons_ne_nil _ _
  · obtain ⟨hd, hcomma⟩ := List.mem_filter.mp hd
    exact (mem_groups hd).resolve_right (bne_iff_ne.mp hcomma)

end Lexeme

/-- Whatever is cut off a text gives a token or is blank. -/
theorem Token.exists_kind? {text piece : List Char} {lexeme : Lexeme} (h : Cuts text lexeme piece)
    (place : Place) : ∃ kind, kind? lexeme piece place = .ok kind := by
  cases h with
  | decimal rest hc =>
    obtain ⟨value, hvalue⟩ := exists_unsigned?_decimalText rest hc
    rw [kind?, hvalue]
    exact ⟨_, rfl⟩
  | _ => exact ⟨_, rfl⟩

/-! ## Where no lexeme starts -/

/-- A character that starts no lexeme. -/
structure Unexpected (c : Char) : Prop where
  blank : isBlank c = false
  symbol : ∀ s : Symbol, s.char ≠ c
  digit : isDigit c = false
  lower : isLower c = false

theorem lexeme?_cons_eq_none {c : Char} {rest : List Char} :
    lexeme? (c :: rest) = none ↔ Unexpected c := by
  constructor
  · intro h
    have hdigit : isDigit c = false := by
      rw [← Bool.not_eq_true]
      intro hdigit
      rw [lexeme?_digit hdigit] at h
      split at h <;> cases h
    have hlower : isLower c = false := by
      rw [← Bool.not_eq_true]
      intro hlower
      rw [lexeme?_lower hlower] at h
      cases h
    simp only [lexeme?] at h
    split at h
    · cases h
    split at h
    · cases h
    next hblank =>
      split at h
      · cases h
      next hsymbol =>
        have hnone := Option.eq_none_iff_forall_ne_some.mpr hsymbol
        exact ⟨eq_false_of_ne_true hblank, Symbol.ofChar?_eq_none_iff.mp hnone, hdigit, hlower⟩
  · intro h
    have hradix : radix? (c :: rest) = none := by
      unfold radix?
      split
      next heq =>
        cases heq
        exact absurd h.digit (by decide)
      next => rfl
    rw [lexeme?_cons h.blank (Symbol.ofChar?_eq_none_iff.mpr h.symbol), hradix, h.digit, h.lower]
    rfl

/-! ## Parts that do not look ahead -/

namespace Lexeme

/-- Nothing, or a text with this character in front. -/
inductive HeadedBy (c : Char) : List Char → Prop
  | nil : HeadedBy c []
  | cons (rest : List Char) : HeadedBy c (c :: rest)

/-- What stands at the front and has no `c` in it stands in front of the first `c`. -/
theorem HeadedBy.exists_append {c : Char} {tail front others body : List Char}
    (htail : HeadedBy c tail) (hfront : c ∉ front) (heq : body ++ tail = front ++ others) :
    ∃ body', body = front ++ body' := by
  rcases List.append_eq_append_iff.mp heq with ⟨piece, rfl, htail'⟩ | ⟨body', rfl, -⟩
  · cases piece with
    | nil => exact ⟨[], by simp only [List.append_nil]⟩
    | cons d piece =>
      rw [htail'] at htail
      cases htail
      exact absurd (List.mem_append_right body List.mem_cons_self) hfront
  · exact ⟨body', rfl⟩

/-- `part` cuts the same off a text in front of `tail'` as in front of `tail`. This is said only
where it does not go on into `tail`, and where it comes up to `tail`, only if the two are `free` to
be exchanged. -/
def Steady (tail tail' : List Char) (free : Prop) (part : List Char → List Char) : Prop :=
  ∀ body, (part (body ++ tail)).length ≤ body.length →
    ((part (body ++ tail)).length = body.length → free) → part (body ++ tail') = part (body ++ tail)

/-- One part at the front, and another one behind it. -/
def andThen (first second : List Char → List Char) (text : List Char) : List Char :=
  first text ++ second (text.drop (first text).length)

theorem decimalText_eq_andThen :
    decimalText = andThen (List.takeWhile isDigit) (andThen groups (andThen fraction exponent)) := by
  funext text
  simp only [decimalText, andThen, List.append_assoc]

section
variable {c : Char} {rest tail : List Char} {free : Prop}

theorem Steady.andThen {first second : List Char → List Char}
    (hfirst : Steady (c :: rest) tail free first) (hsecond : Steady (c :: rest) tail free second) :
    Steady (c :: rest) tail free (andThen first second) := by
  intro body hle hfree
  simp only [Lexeme.andThen, List.length_append] at hle hfree
  have hlength : (first (body ++ c :: rest)).length ≤ body.length := by omega
  have heq := hfirst body hlength fun hfull => hfree (by omega)
  generalize hpiece : first (body ++ c :: rest) = piece at *
  -- what is left of the body stands in front of the same texts
  rw [List.drop_append_of_le_length hlength] at hle hfree
  simp only [Lexeme.andThen, heq, hpiece, List.drop_append_of_le_length hlength]
  have hleft : (body.drop piece.length).length = body.length - piece.length := List.length_drop
  rw [hsecond (body.drop piece.length) (by omega) fun hfull => hfree (by omega)]

theorem takeWhile_append_headed (htail : HeadedBy c tail) {p : Char → Bool} (hc : p c = false)
    (body : List Char) : (body ++ tail).takeWhile p = body.takeWhile p := by
  induction body with
  | nil =>
    cases htail with
    | nil => rfl
    | cons rest => exact List.takeWhile_cons_of_neg (by rw [hc]; exact Bool.false_ne_true)
  | cons d body ih => simp only [List.cons_append, List.takeWhile_cons, ih]

/-- A run of characters stops in front of `c`, or would go on into it. -/
theorem steady_takeWhile (htail : HeadedBy c tail) (p : Char → Bool) :
    Steady (c :: rest) tail free (List.takeWhile p) := by
  intro body hle hfree
  clear hfree
  induction body with
  | nil =>
    have hc : p c = false := by
      rw [← Bool.not_eq_true]
      intro hc
      rw [List.nil_append, List.takeWhile_cons_of_pos hc] at hle
      cases hle
    rw [takeWhile_append_headed htail hc, takeWhile_append_headed (.cons rest) hc]
  | cons d body ih =>
    rw [List.cons_append, List.cons_append]
    by_cases hd : p d = true
    · rw [List.cons_append, List.takeWhile_cons_of_pos hd] at hle
      rw [List.takeWhile_cons_of_pos hd, List.takeWhile_cons_of_pos hd,
        ih (Nat.le_of_succ_le_succ hle)]
    · rw [List.takeWhile_cons_of_neg hd, List.takeWhile_cons_of_neg hd]

theorem groups_append_headed (htail : HeadedBy c tail) (hdigit : isDigit c = false) (hcomma : c ≠ ',')
    (body : List Char) : groups (body ++ tail) = groups body := by
  fun_induction groups body with
  | case1 x y z body hdigits ih => simp only [List.cons_append, groups, hdigits, if_true, ih]
  | case2 x y z body hdigits => simp only [List.cons_append, groups, hdigits]; rfl
  | case3 body hshort =>
    unfold groups
    split
    next x y z others heq =>
      refine if_neg fun hdigits => ?_
      simp only [Bool.and_eq_true] at hdigits
      have hne (d : Char) (hd : isDigit d = true) : c ≠ d := by
        rintro rfl
        rw [hdigit] at hd
        cases hd
      have hc : c ∉ [',', x, y, z] := by
        simp only [List.mem_cons, List.not_mem_nil, or_false, not_or]
        exact ⟨hcomma, hne x hdigits.1.1, hne y hdigits.1.2, hne z hdigits.2⟩
      have heq' : body ++ tail = [',', x, y, z] ++ others := heq
      obtain ⟨body', hbody⟩ := htail.exists_append hc heq'
      exact hshort x y z body' hbody
    next => rfl

theorem steady_groups (htail : HeadedBy c tail) (hdigit : isDigit c = false) (hcomma : c ≠ ',') :
    Steady (c :: rest) tail free groups := by
  intro body _ _
  rw [groups_append_headed htail hdigit hcomma, groups_append_headed (.cons rest) hdigit hcomma]

/-- A part that sees its first character and digits can only be disturbed where it has nothing in
front of it. -/
theorem Steady.of_cons {part : List Char → List Char} (hnil : free → part tail = [])
    (hcons : ∀ d body, part (d :: (body ++ tail)) = part (d :: (body ++ c :: rest))) :
    Steady (c :: rest) tail free part := by
  intro body hle hfree
  cases body with
  | nil =>
    have hnone : part (c :: rest) = [] := List.eq_nil_of_length_eq_zero (Nat.le_zero.mp hle)
    exact (hnil (hfree (congrArg List.length hnone))).trans hnone.symm
  | cons d body => exact hcons d body

theorem steady_fraction (htail : HeadedBy c tail) (hdigit : isDigit c = false)
    (hfree : free → c = '.' → tail = []) : Steady (c :: rest) tail free fraction := by
  refine .of_cons (fun h => ?_) fun d body => ?_
  · by_cases hc : c = '.'
    · rw [hfree h hc]
      rfl
    · cases htail with
      | nil => rfl
      | cons => exact fraction_cons_of_ne hc
  · by_cases hd : d = '.'
    · subst hd
      simp only [fraction, takeWhile_append_headed htail hdigit,
        takeWhile_append_headed (.cons rest) hdigit]
    · rw [fraction_cons_of_ne hd, fraction_cons_of_ne hd]

theorem steady_exponent (htail : HeadedBy c tail) (hdigit : isDigit c = false) (he : c ≠ 'e')
    (hfree : free → c = 'E' → tail = []) : Steady (c :: rest) tail free exponent := by
  refine .of_cons (fun h => ?_) fun d body => ?_
  · by_cases hE : c = 'E'
    · rw [hfree h hE]
      rfl
    · cases htail with
      | nil => rfl
      | cons => exact exponent_cons_of_ne he hE
  · simp only [exponent, takeWhile_append_headed htail hdigit,
      takeWhile_append_headed (.cons rest) hdigit]

end

/-! ## The first lexeme -/

/-- A character that goes on with no digits, no small letters and no group. -/
structure Breaks (c : Char) : Prop where
  digit : isDigit c = false
  lower : isLower c = false
  comma : c ≠ ','

theorem Breaks.of_isBlank {c : Char} (h : isBlank c = true) : Breaks c where
  digit := by
    rw [← Bool.not_eq_true]
    intro hc
    rw [isBlank_of_isDigit hc] at h
    cases h
  lower := by
    rw [← Bool.not_eq_true]
    intro hc
    rw [isBlank_of_isNameChar (isNameChar_of_isLower hc)] at h
    cases h
  comma := by
    rintro rfl
    cases h

section
variable {c : Char} {rest tail : List Char} (hc : Breaks c) (htail : HeadedBy c tail)
include hc htail

theorem steady_decimalText {free : Prop} (hfree : free → c = '.' ∨ c = 'E' → tail = []) :
    Steady (c :: rest) tail free decimalText := by
  have he : c ≠ 'e' := by
    rintro rfl
    exact absurd hc.lower (by decide)
  rw [decimalText_eq_andThen]
  exact (steady_takeWhile htail isDigit).andThen <|
    (steady_groups htail hc.digit hc.comma).andThen <|
    (steady_fraction htail hc.digit fun h hpoint => hfree h (.inl hpoint)).andThen <|
    steady_exponent htail hc.digit he fun h hE => hfree h (.inr hE)

theorem radix?_append_headed (body : List Char) : radix? (body ++ tail) = radix? body := by
  refine Option.ext fun ⟨base, digits⟩ => ?_
  have hbase : base.isDigit c = false := by
    rw [← Bool.not_eq_true]
    intro h
    rcases Base.isDigit_of_isDigit h with h | h
    · exact absurd h (by rw [hc.digit]; exact Bool.false_ne_true)
    · exact absurd h (by rw [hc.lower]; exact Bool.false_ne_true)
  rw [radix?_eq_some, radix?_eq_some]
  constructor
  · rintro ⟨mark, others, heq, hmark, hdigits, hne⟩
    have hfront : c ∉ ['0', mark] := by
      simp only [List.mem_cons, List.not_mem_nil, or_false, not_or]
      refine ⟨?_, ?_⟩
      · rintro rfl
        exact absurd hc.digit (by decide)
      · rintro rfl
        rcases Base.ofMark?_eq_some hmark with rfl | rfl | rfl <;>
          exact absurd hc.lower (by decide)
    obtain ⟨body', rfl⟩ := htail.exists_append hfront (heq : _ = ['0', mark] ++ others)
    have hothers : body' ++ tail = others := (List.cons.inj (List.cons.inj heq).2).2
    rw [← hothers, takeWhile_append_headed htail hbase] at hdigits
    exact ⟨mark, body', rfl, hmark, hdigits, hne⟩
  · rintro ⟨mark, others, rfl, hmark, hdigits, hne⟩
    refine ⟨mark, others ++ tail, rfl, hmark, ?_, hne⟩
    rw [takeWhile_append_headed htail hbase, hdigits]

end
end Lexeme

theorem Unexpected.breaks {c : Char} (h : Unexpected c) : Breaks c :=
  ⟨h.digit, h.lower, fun hc => h.symbol .comma hc.symm⟩

/-- **A lexeme in front of a character does not see what is behind that.** The text may end in front
of the character, or go on behind it in another way, unless it is a point or an `E` right behind a
decimal number. -/
theorem lexeme?_steady {c : Char} {body rest tail piece : List Char} {lexeme : Lexeme} (hc : Breaks c)
    (htail : HeadedBy c tail) (h : lexeme? (body ++ c :: rest) = some (lexeme, piece))
    (hle : piece.length ≤ body.length)
    (hfree : lexeme = .decimal → piece.length = body.length → c = '.' ∨ c = 'E' → tail = []) :
    lexeme? (body ++ tail) = some (lexeme, piece) := by
  have hcuts := Cuts.of_lexeme? h
  cases body with
  | nil => exact absurd (List.eq_nil_of_length_eq_zero (Nat.le_zero.mp hle)) hcuts.ne_nil
  | cons d body =>
    have hrun (p : Char → Bool)
        (hle : (d :: (body ++ c :: rest).takeWhile p).length ≤ (d :: body).length) :
        (body ++ tail).takeWhile p = (body ++ c :: rest).takeWhile p := by
      have hsteady : Steady (c :: rest) tail True (List.takeWhile p) := steady_takeWhile htail p
      exact hsteady body (Nat.le_of_succ_le_succ hle) fun _ => trivial
    have hradix : radix? (d :: (body ++ tail)) = radix? (d :: (body ++ c :: rest)) := by
      rw [← List.cons_append, ← List.cons_append, radix?_append_headed hc htail,
        radix?_append_headed hc (.cons rest)]
    rw [List.cons_append] at h hcuts ⊢
    generalize htext : d :: (body ++ c :: rest) = text at hcuts
    -- what starts with `d` starts with it in front of either tail, so only the end is to be found
    cases hcuts with
    | newline =>
      obtain ⟨rfl, rfl⟩ := List.cons.inj htext
      rw [lexeme?, if_pos rfl, hrun isBlank hle]
    | space _ hd =>
      obtain ⟨rfl, rfl⟩ := List.cons.inj htext
      obtain ⟨hblank, hline⟩ := Bool.and_eq_true_iff.mp hd
      rw [lexeme?, if_neg (bne_iff_ne.mp hline), if_pos hblank, hrun isSpace hle]
    | symbol _ hd =>
      obtain ⟨rfl, rfl⟩ := List.cons.inj htext
      rw [← Symbol.char_of_ofChar? hd]
      exact lexeme?_symbol _ _
    | @radix base mark digits others hmark hdigits hne =>
      have hbody : radix? (d :: body) = some (base, digits) := by
        rw [← radix?_append_headed hc (.cons rest) (d :: body), List.cons_append, htext]
        exact radix?_eq_some.mpr ⟨mark, others, rfl, hmark, hdigits, hne⟩
      obtain ⟨mark', body', heq, -⟩ := radix?_eq_some.mp hbody
      cases heq
      cases htext
      rw [← radix?_append_headed hc htail, List.cons_append] at hbody
      rw [lexeme?_digit (by rfl), hbody]
      rfl
    | decimal _ hd =>
      obtain ⟨rfl, rfl⟩ := List.cons.inj htext
      have hdecimal := steady_decimalText hc htail (hfree rfl) (d :: body) hle id
      rw [List.cons_append, List.cons_append] at hdecimal
      rw [lexeme?_digit hd] at h ⊢
      rw [hradix, hdecimal]
      cases hnone : radix? (d :: (body ++ c :: rest)) with
      | none => rfl
      | some cut =>
        rw [hnone] at h
        cases h
    | name _ hd =>
      obtain ⟨rfl, rfl⟩ := List.cons.inj htext
      rw [lexeme?_lower hd, hrun isNameChar hle]

end Abacus
