import Abacus.Token.Lexer

/-!
# Where a lexeme ends

A lexeme is as long as it can be, so whether it ends at some place depends on what stands behind it.
The first part says which characters begin which lexemes. Then `Lexeme.Ends` says what must not
stand behind a decimal number. If nothing of it does, the number is cut off the longer text just as
it is cut off itself (`lexeme?_decimal`), and likewise a number in another base (`lexeme?_radix`).
For a name it is enough that no letter or digit follows (`lexeme?_name`). `Cuts` lists the shapes
again, this time for what `lexeme?` has cut off some text.
-/
namespace Abacus

/-! ## Characters -/

theorem Decimal.isDigit_iff {c : Char} : isDigit c = true ↔ 48 ≤ c.toNat ∧ c.toNat ≤ 57 := by
  simp only [isDigit, Bool.and_eq_true, decide_eq_true_eq, Char.le_def, UInt32.le_iff_toNat_le]
  rfl

theorem Lexeme.isLower_iff {c : Char} : isLower c = true ↔ 97 ≤ c.toNat ∧ c.toNat ≤ 122 := by
  simp only [isLower, Bool.and_eq_true, decide_eq_true_eq, Char.le_def, UInt32.le_iff_toNat_le]
  rfl

theorem Text.isBlank_eq_false {c : Char} (hlow : 33 ≤ c.toNat) (hhigh : c.toNat ≤ 126) :
    isBlank c = false := by
  simp only [isBlank, blankRanges, List.any_cons, List.any_nil, Bool.or_false, Bool.or_eq_false_iff,
    Bool.and_eq_false_iff, decide_eq_false_iff_not]
  omega

theorem Symbol.ofChar?_eq_none_iff {c : Char} : ofChar? c = none ↔ ∀ s : Symbol, s.char ≠ c := by
  rw [ofChar?, List.find?_eq_none]
  constructor
  · intro h s
    simpa using h s (by cases s <;> decide)
  · intro h s _
    simpa using h s

theorem Symbol.ofChar?_eq_none {c : Char} (h : ∀ s : Symbol, s.char.toNat ≠ c.toNat) :
    ofChar? c = none :=
  ofChar?_eq_none_iff.mpr fun s hs => h s (congrArg Char.toNat hs)

theorem Symbol.char_of_ofChar? {c : Char} {s : Symbol} (h : ofChar? c = some s) : s.char = c := by
  simpa using List.find?_some h

theorem Symbol.isBlank_char (s : Symbol) : Text.isBlank s.char = false := by
  cases s <;> decide

namespace Lexeme

theorem isBlank_of_isDigit {c : Char} (h : Decimal.isDigit c = true) : Text.isBlank c = false := by
  obtain ⟨hlow, hhigh⟩ := Decimal.isDigit_iff.mp h
  exact Text.isBlank_eq_false (by omega) (by omega)

theorem isBlank_of_isNameChar {c : Char} (h : isNameChar c = true) : Text.isBlank c = false := by
  have hbounds : 33 ≤ c.toNat ∧ c.toNat ≤ 126 := by
    simp only [isNameChar, Bool.or_eq_true, isLower_iff, Decimal.isDigit_iff, Bool.and_eq_true,
      decide_eq_true_eq, Char.le_def, UInt32.le_iff_toNat_le] at h
    change (_ ∨ 65 ≤ c.toNat ∧ c.toNat ≤ 90) ∨ _ at h
    omega
  exact Text.isBlank_eq_false hbounds.1 hbounds.2

theorem isNameChar_of_isLower {c : Char} (h : isLower c = true) : isNameChar c = true := by
  simp only [isNameChar, h, Bool.true_or]

theorem not_isDigit_of_isLower {c : Char} (h : isLower c = true) : Decimal.isDigit c = false := by
  rw [← Bool.not_eq_true, Decimal.isDigit_iff]
  have := isLower_iff.mp h
  omega

end Lexeme

/-! ## Numbers in another base -/

namespace Base

theorem isDigit_of_isDigit {b : Base} {c : Char} (h : b.isDigit c = true) :
    Decimal.isDigit c = true ∨ Lexeme.isLower c = true := by
  simp only [isDigit, digit?, Option.isSome_filter] at h
  rw [Decimal.isDigit_iff, Lexeme.isLower_iff]
  split at h
  next hdigit => exact .inl (Decimal.isDigit_iff.mp hdigit)
  next =>
    split at h
    next hletter =>
      simp only [Bool.and_eq_true, decide_eq_true_eq, Char.le_def, UInt32.le_iff_toNat_le] at hletter
      change 97 ≤ c.toNat ∧ c.toNat ≤ 102 at hletter
      omega
    next => cases h

theorem ofMark?_eq_some {c : Char} {b : Base} (h : ofMark? c = some b) :
    c = 'b' ∨ c = 'o' ∨ c = 'x' := by
  unfold ofMark? at h
  split at h
  · exact .inl rfl
  · exact .inr (.inl rfl)
  · exact .inr (.inr rfl)
  · cases h

end Base

namespace Lexeme

open Decimal (isDigit)

theorem radix?_eq_some {text : List Char} {base : Base} {digits : List Char} :
    radix? text = some (base, digits) ↔
      ∃ mark rest, text = '0' :: mark :: rest ∧ Base.ofMark? mark = some base ∧
        rest.takeWhile base.isDigit = digits ∧ digits ≠ [] := by
  constructor
  · intro h
    unfold radix? at h
    split at h
    next mark rest =>
      split at h
      next base' hmark =>
        split at h
        next => cases h
        next hne =>
          cases h
          exact ⟨mark, rest, rfl, hmark, rfl, hne⟩
      next => cases h
    next => cases h
  · rintro ⟨mark, rest, rfl, hmark, rfl, hne⟩
    simp only [radix?, hmark]

theorem radix?_append {base : Base} {mark : Char} {digits rest : List Char}
    (hmark : Base.ofMark? mark = some base) (hdigits : ∀ c ∈ digits, base.isDigit c = true)
    (hne : digits ≠ []) (hrest : rest.takeWhile base.isDigit = []) :
    radix? ('0' :: mark :: (digits ++ rest)) = some (base, digits) := by
  refine radix?_eq_some.mpr ⟨mark, _, rfl, hmark, ?_, hne⟩
  rw [List.takeWhile_append_of_pos hdigits, hrest, List.append_nil]

/-! ## Decimal numbers -/

section
variable {c : Char} {rest : List Char}

theorem groups_cons_of_ne (h : c ≠ ',') : groups (c :: rest) = [] := by
  unfold groups
  split
  next heq => cases heq; exact absurd rfl h
  next => rfl

theorem fraction_cons_of_ne (h : c ≠ '.') : fraction (c :: rest) = [] := by
  unfold fraction
  split
  next heq => cases heq; exact absurd rfl h
  next => rfl

theorem exponent_cons_of_ne (he : c ≠ 'e') (hE : c ≠ 'E') : exponent (c :: rest) = [] := by
  simp only [exponent, beq_eq_false_iff_ne.mpr he, beq_eq_false_iff_ne.mpr hE, Bool.or_self]

end

theorem groups_eq (text : List Char) : groups text = [] ∨ ∃ rest, groups text = ',' :: rest := by
  unfold groups
  split
  · split
    · exact .inr ⟨_, rfl⟩
    · exact .inl rfl
  · exact .inl rfl

theorem fraction_eq (text : List Char) :
    fraction text = [] ∨
      ∃ digits, fraction text = '.' :: digits ∧ digits ≠ [] ∧ ∀ c ∈ digits, isDigit c = true := by
  unfold fraction
  split
  next rest =>
    split
    · exact .inl rfl
    next hne => exact .inr ⟨_, rfl, hne, fun c hc => List.all_eq_true.mp List.all_takeWhile c hc⟩
  next => exact .inl rfl

theorem exponent_eq (text : List Char) :
    exponent text = [] ∨
      ∃ mark digits, exponent text = mark :: digits ∧ (mark = 'e' ∨ mark = 'E') ∧ digits ≠ [] ∧
        ∀ c ∈ digits, isDigit c = true := by
  unfold exponent
  split
  next mark rest =>
    split
    next digit digits hmark hdigits =>
      refine .inr ⟨mark, digit :: digits, rfl, ?_, List.cons_ne_nil _ _, fun c hc => ?_⟩
      · simpa only [Bool.or_eq_true, beq_iff_eq] using hmark
      · rw [← hdigits] at hc
        exact List.all_eq_true.mp List.all_takeWhile c hc
    next => exact .inl rfl
  next => exact .inl rfl

/-- No decimal number goes on with this text. -/
structure Ends (rest : List Char) : Prop where
  digits : rest.takeWhile isDigit = []
  groups : groups rest = []
  fraction : fraction rest = []
  exponent : exponent rest = []

theorem Ends.nil : Ends [] :=
  ⟨rfl, rfl, rfl, rfl⟩

theorem takeWhile_isDigit_cons {c : Char} {rest : List Char} (h : isDigit c = false) :
    (c :: rest).takeWhile isDigit = [] :=
  List.takeWhile_cons_of_neg (by rw [h]; exact Bool.false_ne_true)

theorem Ends.cons {c : Char} {rest : List Char} (hdigit : isDigit c = false) (hcomma : c ≠ ',')
    (hpoint : c ≠ '.') (he : c ≠ 'e') (hE : c ≠ 'E') : Ends (c :: rest) :=
  ⟨takeWhile_isDigit_cons hdigit, groups_cons_of_ne hcomma, fraction_cons_of_ne hpoint,
    exponent_cons_of_ne he hE⟩

/-- The comma between two arguments has a blank behind it. -/
theorem Ends.comma (rest : List Char) : Ends (',' :: ' ' :: rest) where
  digits := rfl
  groups := by
    unfold Lexeme.groups
    split
    next heq => cases heq; rfl
    next => rfl
  fraction := rfl
  exponent := exponent_cons_of_ne (by decide) (by decide)

/-! ### The four parts, one behind the other -/

section
variable {rest : List Char} {P : List Char → Prop}

/-- A fraction in front of a text is nothing or begins with a point. -/
theorem fraction_append_of (hrest : P rest) (hpoint : ∀ digits, P ('.' :: digits))
    (text : List Char) : P (fraction text ++ rest) := by
  rcases fraction_eq text with heq | ⟨digits, heq, -⟩
  · rw [heq]
    exact hrest
  · rw [heq]
    exact hpoint _

/-- An exponent in front of a text is nothing or begins with its mark. -/
theorem exponent_append_of (hrest : P rest) (he : ∀ digits, P ('e' :: digits))
    (hE : ∀ digits, P ('E' :: digits)) (text : List Char) : P (exponent text ++ rest) := by
  rcases exponent_eq text with heq | ⟨mark, digits, heq, rfl | rfl, -⟩
  · rw [heq]
    exact hrest
  · rw [heq]
    exact he _
  · rw [heq]
    exact hE _

end

section
variable {rest : List Char} (hdigits : rest.takeWhile isDigit = [])
include hdigits

theorem takeWhile_groups_append (text : List Char) :
    (groups text ++ rest).takeWhile isDigit = [] := by
  rcases groups_eq text with heq | ⟨tail, heq⟩
  · rw [heq]
    exact hdigits
  · rw [heq]
    rfl

theorem takeWhile_fraction_append (text : List Char) :
    (fraction text ++ rest).takeWhile isDigit = [] :=
  fraction_append_of (P := fun text => text.takeWhile isDigit = []) hdigits (fun _ => rfl) text

theorem takeWhile_exponent_append (text : List Char) :
    (exponent text ++ rest).takeWhile isDigit = [] :=
  exponent_append_of (P := fun text => text.takeWhile isDigit = []) hdigits (fun _ => rfl)
    (fun _ => rfl) text

theorem fraction_append (hfraction : fraction rest = []) (text : List Char) :
    fraction (fraction text ++ rest) = fraction text := by
  rcases fraction_eq text with heq | ⟨digits, heq, hne, hall⟩
  · rw [heq]
    exact hfraction
  · obtain ⟨d, ds, rfl⟩ := List.exists_cons_of_ne_nil hne
    rw [heq, List.cons_append, fraction, List.takeWhile_append_of_pos hall, hdigits,
      List.append_nil]

theorem exponent_append (hexponent : exponent rest = []) (text : List Char) :
    exponent (exponent text ++ rest) = exponent text := by
  rcases exponent_eq text with heq | ⟨mark, digits, heq, hmark, hne, hall⟩
  · rw [heq]
    exact hexponent
  · obtain ⟨d, ds, rfl⟩ := List.exists_cons_of_ne_nil hne
    have hmark' : (mark == 'e' || mark == 'E') = true := by
      rcases hmark with rfl | rfl <;> rfl
    rw [heq, List.cons_append, exponent, List.takeWhile_append_of_pos hall, hdigits,
      List.append_nil, hmark']

end

section
variable {rest : List Char}

theorem groups_append (h : groups rest = []) (text : List Char) :
    groups (groups text ++ rest) = groups text := by
  fun_induction groups text with
  | case1 a b c tail hdigits ih => simp only [List.cons_append, groups, hdigits, if_true, ih]
  | case2 => exact h
  | case3 => exact h

theorem groups_fraction_append (h : groups rest = []) (text : List Char) :
    groups (fraction text ++ rest) = [] :=
  fraction_append_of (P := fun text => groups text = []) h
    (fun _ => groups_cons_of_ne (by decide)) text

theorem groups_exponent_append (h : groups rest = []) (text : List Char) :
    groups (exponent text ++ rest) = [] :=
  exponent_append_of (P := fun text => groups text = []) h
    (fun _ => groups_cons_of_ne (by decide)) (fun _ => groups_cons_of_ne (by decide)) text

theorem fraction_exponent_append (h : fraction rest = []) (text : List Char) :
    fraction (exponent text ++ rest) = [] :=
  exponent_append_of (P := fun text => fraction text = []) h
    (fun _ => fraction_cons_of_ne (by decide)) (fun _ => fraction_cons_of_ne (by decide)) text

end

/-- The text of a decimal number, part by part. -/
theorem decimalText_eq (text : List Char) :
    ∃ groupsText fractionText exponentText, decimalText text =
      text.takeWhile isDigit ++
        (groups groupsText ++ (fraction fractionText ++ exponent exponentText)) := by
  simp only [decimalText, List.append_assoc]
  exact ⟨_, _, _, rfl⟩

/-- A decimal number is cut off whole if what is behind it does not go on with it. -/
theorem decimalText_append (text : List Char) {rest : List Char} (h : Ends rest) :
    decimalText (decimalText text ++ rest) = decimalText text := by
  obtain ⟨groupsText, fractionText, exponentText, heq⟩ := decimalText_eq text
  have hwhole : ∀ c ∈ text.takeWhile isDigit, isDigit c = true :=
    List.all_eq_true.mp List.all_takeWhile
  have hx := takeWhile_exponent_append h.digits exponentText
  have hfx := takeWhile_fraction_append hx fractionText
  have hgfx := takeWhile_groups_append hfx groupsText
  have hgroups := groups_append (groups_fraction_append
    (groups_exponent_append h.groups exponentText) fractionText) groupsText
  have hfraction := fraction_append hx (fraction_exponent_append h.fraction exponentText) fractionText
  have hexponent := exponent_append h.digits h.exponent exponentText
  rw [heq]
  simp only [decimalText, List.append_assoc, List.takeWhile_append_of_pos hwhole, hgfx,
    List.append_nil, List.drop_left, hgroups, hfraction, hexponent]

theorem groups_isPrefix (text : List Char) : groups text <+: text := by
  fun_induction groups text with
  | case1 a b c tail hdigits ih => simpa only [List.cons_prefix_cons, true_and] using ih
  | case2 => exact List.nil_prefix
  | case3 => exact List.nil_prefix

theorem fraction_isPrefix (text : List Char) : fraction text <+: text := by
  unfold fraction
  split
  next rest =>
    split
    · exact List.nil_prefix
    · exact List.cons_prefix_cons.mpr ⟨rfl, List.takeWhile_prefix _⟩
  next => exact List.nil_prefix

theorem exponent_isPrefix (text : List Char) : exponent text <+: text := by
  unfold exponent
  split
  next mark rest =>
    split
    next hdigits =>
      rw [← hdigits]
      exact List.cons_prefix_cons.mpr ⟨rfl, List.takeWhile_prefix _⟩
    next => exact List.nil_prefix
  next => exact List.nil_prefix

/-- A prefix of a text with a prefix of what is left behind it. -/
theorem append_isPrefix {text front next : List Char} (hfront : front <+: text)
    (hnext : next <+: text.drop front.length) : front ++ next <+: text := by
  obtain ⟨rest, rfl⟩ := hfront
  rw [List.drop_left] at hnext
  exact List.prefix_append_right_inj front |>.mpr hnext

theorem decimalText_isPrefix (text : List Char) : decimalText text <+: text := by
  have hwhole := List.takeWhile_prefix (p := isDigit) (l := text)
  have hgroups := append_isPrefix hwhole (groups_isPrefix _)
  have hfraction := append_isPrefix hgroups (fraction_isPrefix _)
  have hexponent := append_isPrefix hfraction (exponent_isPrefix _)
  simp only [List.length_append, ← List.drop_drop] at hexponent
  exact hexponent

theorem mem_groups {text : List Char} {c : Char} (h : c ∈ groups text) :
    isDigit c = true ∨ c = ',' := by
  fun_induction groups text with
  | case1 x y z tail hdigits ih =>
    simp only [Bool.and_eq_true] at hdigits
    simp only [List.mem_cons] at h
    rcases h with rfl | rfl | rfl | rfl | h
    · exact .inr rfl
    · exact .inl hdigits.1.1
    · exact .inl hdigits.1.2
    · exact .inl hdigits.2
    · exact ih h
  | case2 => cases h
  | case3 => cases h

/-- The characters of a decimal number. -/
theorem mem_decimalText {text : List Char} {c : Char} (h : c ∈ decimalText text) :
    isDigit c = true ∨ c = ',' ∨ c = '.' ∨ c = 'e' ∨ c = 'E' := by
  obtain ⟨groupsText, fractionText, exponentText, heq⟩ := decimalText_eq text
  rw [heq, List.mem_append, List.mem_append, List.mem_append] at h
  rcases h with h | h | h | h
  · exact .inl (List.all_eq_true.mp List.all_takeWhile c h)
  · rcases mem_groups h with h | h
    · exact .inl h
    · exact .inr (.inl h)
  · rcases fraction_eq fractionText with hnil | ⟨digits, hcons, -, hall⟩
    · rw [hnil] at h
      cases h
    · rw [hcons, List.mem_cons] at h
      rcases h with h | h
      · exact .inr (.inr (.inl h))
      · exact .inl (hall c h)
  · rcases exponent_eq exponentText with hnil | ⟨mark, digits, hcons, hmark, -, hall⟩
    · rw [hnil] at h
      cases h
    · rw [hcons, List.mem_cons] at h
      rcases h with rfl | h
      · exact .inr (.inr (.inr hmark))
      · exact .inl (hall c h)

/-- Behind a decimal number a base can only be announced if the number is a single zero. -/
theorem radix?_decimalText_append {text rest : List Char}
    (hmark : decimalText text = ['0'] → ∀ mark tail, rest = mark :: tail → Base.ofMark? mark = none)
    (hne : decimalText text ≠ []) : radix? (decimalText text ++ rest) = none := by
  obtain ⟨c, tail, heq⟩ := List.exists_cons_of_ne_nil hne
  rw [← Option.not_isSome_iff_eq_none, Option.isSome_iff_exists]
  rintro ⟨⟨base, digits⟩, hradix⟩
  obtain ⟨mark, rest', htext, hbase, -, -⟩ := radix?_eq_some.mp hradix
  cases tail with
  | nil =>
    rw [heq] at htext
    obtain ⟨rfl, hrest⟩ := List.cons.inj htext
    rw [hmark heq mark rest' hrest] at hbase
    cases hbase
  | cons second tail =>
    rw [heq] at htext
    obtain ⟨rfl, hrest⟩ := List.cons.inj htext
    obtain ⟨rfl, -⟩ := List.cons.inj hrest
    have hsecond : second ∈ decimalText text := by
      rw [heq]
      exact List.mem_cons_of_mem _ List.mem_cons_self
    have hmem := mem_decimalText hsecond
    rcases Base.ofMark?_eq_some hbase with rfl | rfl | rfl <;> revert hmem <;> decide

end Lexeme

/-! ## The first lexeme -/

open Lexeme Text

section
variable {c : Char} {text rest : List Char}

theorem lexeme?_symbol (s : Symbol) (rest : List Char) :
    lexeme? (s.char :: rest) = some (.symbol s, [s.char]) := by
  cases s <;> rfl

theorem lexeme?_space {gap : List Char} (hc : isSpace c = true)
    (hgap : ∀ d ∈ gap, isSpace d = true) (hrest : rest.takeWhile isSpace = []) :
    lexeme? (c :: (gap ++ rest)) = some (.space, c :: gap) := by
  obtain ⟨hblank, hline⟩ := Bool.and_eq_true_iff.mp hc
  rw [lexeme?, if_neg (bne_iff_ne.mp hline), if_pos hblank, List.takeWhile_append_of_pos hgap, hrest,
    List.append_nil]

theorem lexeme?_newline {blanks : List Char} (hblanks : ∀ c ∈ blanks, isBlank c = true)
    (hrest : rest.takeWhile isBlank = []) :
    lexeme? ('\n' :: (blanks ++ rest)) = some (.newline, '\n' :: blanks) := by
  rw [lexeme?, if_pos rfl, List.takeWhile_append_of_pos hblanks, hrest, List.append_nil]

/-- What is left to tell apart behind a character that is neither blank nor a symbol. -/
theorem lexeme?_cons (hblank : isBlank c = false) (hsymbol : Symbol.ofChar? c = none) :
    lexeme? (c :: rest) =
      match radix? (c :: rest) with
      | some (base, digits) => some (.radix base digits, (c :: rest).take 2 ++ digits)
      | none =>
        if Decimal.isDigit c then some (.decimal, decimalText (c :: rest))
        else if isLower c then some (.name, c :: rest.takeWhile isNameChar)
        else none := by
  have hline : c ≠ '\n' := by
    rintro rfl
    cases hblank
  rw [lexeme?, if_neg hline, hblank]
  simp only [Bool.false_eq_true, if_false, hsymbol]
  cases radix? (c :: rest) <;> rfl

theorem lexeme?_digit (h : Decimal.isDigit c = true) :
    lexeme? (c :: rest) =
      match radix? (c :: rest) with
      | some (base, digits) => some (.radix base digits, (c :: rest).take 2 ++ digits)
      | none => some (.decimal, decimalText (c :: rest)) := by
  have hsymbol : Symbol.ofChar? c = none := by
    refine Symbol.ofChar?_eq_none fun s heq => ?_
    have hbounds := Decimal.isDigit_iff.mp h
    rw [← heq] at hbounds
    revert hbounds
    cases s <;> decide
  rw [lexeme?_cons (isBlank_of_isDigit h) hsymbol, h]
  rfl

theorem lexeme?_lower (h : isLower c = true) :
    lexeme? (c :: rest) = some (.name, c :: rest.takeWhile isNameChar) := by
  have hbounds := isLower_iff.mp h
  have hsymbol : Symbol.ofChar? c = none := by
    refine Symbol.ofChar?_eq_none fun s heq => ?_
    rw [← heq] at hbounds
    revert hbounds
    cases s <;> decide
  have hradix : radix? (c :: rest) = none := by
    unfold radix?
    split
    next heq =>
      cases heq
      cases h
    next => rfl
  rw [lexeme?_cons (isBlank_of_isNameChar (isNameChar_of_isLower h)) hsymbol, hradix,
    not_isDigit_of_isLower h, h]
  rfl

theorem lexeme?_name {tail : List Char} (hc : isLower c = true)
    (htail : ∀ d ∈ tail, isNameChar d = true) (hrest : rest.takeWhile isNameChar = []) :
    lexeme? (c :: (tail ++ rest)) = some (.name, c :: tail) := by
  rw [lexeme?_lower hc, List.takeWhile_append_of_pos htail, hrest, List.append_nil]

theorem lexeme?_radix {base : Base} {mark : Char} {digits : List Char}
    (hmark : Base.ofMark? mark = some base) (hdigits : ∀ c ∈ digits, base.isDigit c = true)
    (hne : digits ≠ []) (hrest : rest.takeWhile base.isDigit = []) :
    lexeme? ('0' :: mark :: (digits ++ rest)) =
      some (.radix base digits, '0' :: mark :: digits) := by
  rw [lexeme?_digit (by rfl), radix?_append hmark hdigits hne hrest]
  rfl

theorem lexeme?_decimal (hc : Decimal.isDigit c = true) (hrest : Ends rest)
    (hmark : decimalText (c :: text) = ['0'] →
      ∀ mark tail, rest = mark :: tail → Base.ofMark? mark = none) :
    lexeme? (decimalText (c :: text) ++ rest) = some (.decimal, decimalText (c :: text)) := by
  obtain ⟨tail, heq⟩ : ∃ tail, decimalText (c :: text) = c :: tail := by
    simp only [decimalText, List.takeWhile_cons_of_pos hc, List.cons_append]
    exact ⟨_, rfl⟩
  have hradix := radix?_decimalText_append hmark (by rw [heq]; exact List.cons_ne_nil _ _)
  have hcut := decimalText_append (c :: text) hrest
  rw [heq, List.cons_append] at hradix hcut ⊢
  rw [lexeme?_digit hc, hradix, hcut]

end

/-- What `lexeme?` cuts off, shape by shape. -/
inductive Cuts : List Char → Lexeme → List Char → Prop
  | newline (rest : List Char) : Cuts ('\n' :: rest) .newline ('\n' :: rest.takeWhile isBlank)
  | space {c : Char} (rest : List Char) (hc : isSpace c = true) :
      Cuts (c :: rest) .space (c :: rest.takeWhile isSpace)
  | symbol {c : Char} {s : Symbol} (rest : List Char) (hc : Symbol.ofChar? c = some s) :
      Cuts (c :: rest) (.symbol s) [c]
  | radix {base : Base} {mark : Char} {digits rest : List Char}
      (hmark : Base.ofMark? mark = some base) (hdigits : rest.takeWhile base.isDigit = digits)
      (hne : digits ≠ []) : Cuts ('0' :: mark :: rest) (.radix base digits) ('0' :: mark :: digits)
  | decimal {c : Char} (rest : List Char) (hc : Decimal.isDigit c = true) :
      Cuts (c :: rest) .decimal (decimalText (c :: rest))
  | name {c : Char} (rest : List Char) (hc : isLower c = true) :
      Cuts (c :: rest) .name (c :: rest.takeWhile isNameChar)

namespace Cuts

variable {text piece : List Char} {lexeme : Lexeme}

theorem of_lexeme? (h : lexeme? text = some (lexeme, piece)) : Cuts text lexeme piece := by
  unfold lexeme? at h
  split at h
  next => cases h
  next c rest =>
    split at h
    next hline =>
      cases h
      rw [hline]
      exact .newline rest
    split at h
    next hline hblank =>
      cases h
      exact .space rest (by simp [isSpace, hblank, hline])
    split at h
    next s hsymbol =>
      cases h
      exact .symbol rest hsymbol
    split at h
    next base digits hradix =>
      cases h
      obtain ⟨mark, rest', heq, hmark, hdigits, hne⟩ := radix?_eq_some.mp hradix
      rw [heq]
      exact .radix hmark hdigits hne
    split at h
    next hdigit =>
      cases h
      exact .decimal rest hdigit
    split at h
    next hlower =>
      cases h
      exact .name rest hlower
    next => cases h

theorem ne_nil (h : Cuts text lexeme piece) : piece ≠ [] := by
  cases h with
  | decimal rest hc =>
    simp only [decimalText, List.takeWhile_cons_of_pos hc, List.cons_append]
    exact List.cons_ne_nil _ _
  | _ => exact List.cons_ne_nil _ _

theorem isPrefix (h : Cuts text lexeme piece) : piece <+: text := by
  cases h with
  | newline rest => exact List.cons_prefix_cons.mpr ⟨rfl, List.takeWhile_prefix _⟩
  | space rest => exact List.cons_prefix_cons.mpr ⟨rfl, List.takeWhile_prefix _⟩
  | symbol rest => exact List.cons_prefix_cons.mpr ⟨rfl, List.nil_prefix⟩
  | radix hmark hdigits =>
    rw [← hdigits]
    exact List.prefix_append_right_inj ['0', _] |>.mpr (List.takeWhile_prefix _)
  | decimal rest => exact decimalText_isPrefix _
  | name rest => exact List.cons_prefix_cons.mpr ⟨rfl, List.takeWhile_prefix _⟩

/-- The blanks behind a line end go with it, and nothing that is left over is one of them. -/
theorem newline_inv {rest : List Char} (h : Cuts (piece ++ rest) .newline piece) :
    (∃ blanks, piece = '\n' :: blanks ∧ ∀ c ∈ blanks, isBlank c = true) ∧
      rest.takeWhile isBlank = [] := by
  generalize htext : piece ++ rest = text at h
  cases h with
  | newline tail =>
    refine ⟨⟨_, rfl, fun c hc => List.all_eq_true.mp List.all_takeWhile c hc⟩, ?_⟩
    have hrest : rest = tail.dropWhile isBlank := by
      have htail : tail.takeWhile isBlank ++ rest = tail := (List.cons.inj htext).2
      exact List.append_cancel_left (htail.trans List.takeWhile_append_dropWhile.symm)
    have hhead := List.head?_dropWhile_not isBlank tail
    rw [← hrest] at hhead
    cases rest with
    | nil => rfl
    | cons c rest => exact List.takeWhile_cons_of_neg (by simpa using hhead)

theorem symbol_inv {s : Symbol} (h : Cuts text (.symbol s) piece) : piece = [s.char] := by
  cases h with
  | symbol rest hc => rw [Symbol.char_of_ofChar? hc]

theorem isSpace_of_mem (h : Cuts text .space piece) : ∀ c ∈ piece, isSpace c = true := by
  cases h with
  | space rest hc =>
    exact List.forall_mem_cons.mpr ⟨hc, List.all_eq_true.mp List.all_takeWhile⟩

end Cuts
end Abacus
