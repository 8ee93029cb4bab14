import Abacus.Proofs.Float.Comparing
import Abacus.Proofs.Reformatting

/-!
# Programs that are alike

Trees are compared literal by literal, as floats and by their texts. That is enough for a literal
that was read, since its text is what it was read from. A literal that was computed has no text, and
as floats the two zeros are equal. So programs that are alike may differ in the signs of zeros that
were computed, and then neither their texts nor their values need be the same: `1 - 1` and `-0`
fold to programs that are alike, and one is written `0` and the other `-0`.

There is no other difference (`Stmt.told_of_alikeAll`): programs that are alike and have the same
signs of computed zeros differ in their ids alone, and so have one text and one code. And the text
shows these signs, since `-0` is read back as a negation.
-/
namespace Abacus

/-! ## The signs of computed zeros -/

mutual

/-- Of every zero among the literals without a text, in order, whether it is the negative one. -/
def Expr.zeroSigns : Expr → List Bool
  | .number _ v none => if v == 0 then [Decimal.isNegative v] else []
  | .number _ _ (some _) => []
  | .var _ _ => []
  | .binary _ _ left right => left.zeroSigns ++ right.zeroSigns
  | .negate _ operand => operand.zeroSigns
  | .call _ _ args => Expr.zeroSignsAll args

def Expr.zeroSignsAll : List Expr → List Bool
  | [] => []
  | e :: rest => e.zeroSigns ++ Expr.zeroSignsAll rest

end

mutual

def Stmt.zeroSigns : Stmt → List Bool
  | .define _ _ _ _ body => Stmt.zeroSignsAll body
  | .assign _ _ value => value.zeroSigns
  | .expr e => e.zeroSigns

def Stmt.zeroSignsAll : List Stmt → List Bool
  | [] => []
  | s :: rest => s.zeroSigns ++ Stmt.zeroSignsAll rest

end

/-- The signs of the zeros that were computed. -/
def Program.zeroSigns (p : Program) : List Bool :=
  Stmt.zeroSignsAll p.stmts

/-! ### A readable tree has none -/

mutual

theorem Expr.Readable.zeroSigns_eq_nil : ∀ {e : Expr}, e.Readable → e.zeroSigns = []
  | .number _ _ _, ⟨_, rfl, _⟩ => rfl
  | .var _ _, _ => rfl
  | .binary _ _ left right, ⟨hleft, hright⟩ => by
    rw [Expr.zeroSigns, hleft.zeroSigns_eq_nil, hright.zeroSigns_eq_nil, List.append_nil]
  | .negate _ operand, h => Expr.Readable.zeroSigns_eq_nil (e := operand) h
  | .call _ _ _, ⟨_, hargs⟩ => Expr.zeroSignsAll_eq_nil hargs

theorem Expr.zeroSignsAll_eq_nil : ∀ {es : List Expr}, Expr.ReadableAll es →
    Expr.zeroSignsAll es = []
  | [], _ => rfl
  | _ :: _, ⟨he, hes⟩ => by
    rw [Expr.zeroSignsAll, he.zeroSigns_eq_nil, Expr.zeroSignsAll_eq_nil hes, List.append_nil]

end

mutual

theorem Stmt.Readable.zeroSigns_eq_nil : ∀ {s : Stmt}, s.Readable → s.zeroSigns = []
  | .define _ _ _ _ _, ⟨_, _, _, hbody⟩ => Stmt.zeroSignsAll_eq_nil hbody
  | .assign _ _ _, ⟨_, hvalue⟩ => hvalue.zeroSigns_eq_nil
  | .expr e, h => Expr.Readable.zeroSigns_eq_nil (e := e) h

theorem Stmt.zeroSignsAll_eq_nil : ∀ {ss : List Stmt}, Stmt.ReadableAll ss →
    Stmt.zeroSignsAll ss = []
  | [], _ => rfl
  | _ :: _, ⟨hs, hss⟩ => by
    rw [Stmt.zeroSignsAll, hs.zeroSigns_eq_nil, Stmt.zeroSignsAll_eq_nil hss, List.append_nil]

end

/-! ## What two trees that are alike differ in -/

/-- Two trees with as many computed zeros, given by their signs, their bare trees and the bare trees
that are read back from their texts: the signs tell the bare trees apart, and what is read back tells
the signs apart. -/
structure Told {β : Type} (signs signs' : List Bool) (bare bare' respelled respelled' : β) :
    Prop where
  length : signs.length = signs'.length
  bare : signs = signs' → bare = bare'
  signs : respelled = respelled' → signs = signs'

/-- Trees of two parts. -/
theorem Told.append {β γ δ : Type} {signs signs' more more' : List Bool}
    {bare bare' respelled respelled' : β} {bare₂ bare₂' respelled₂ respelled₂' : γ} {f : β → γ → δ}
    (h : Told signs signs' bare bare' respelled respelled')
    (h' : Told more more' bare₂ bare₂' respelled₂ respelled₂')
    (hf : ∀ {a a' b b'}, f a b = f a' b' → a = a' ∧ b = b') :
    Told (signs ++ more) (signs' ++ more') (f bare bare₂) (f bare' bare₂') (f respelled respelled₂)
      (f respelled' respelled₂') where
  length := by rw [List.length_append, List.length_append, h.length, h'.length]
  bare heq := by
    obtain ⟨hsigns, hmore⟩ := List.append_inj heq h.length
    rw [h.bare hsigns, h'.bare hmore]
  signs heq := by
    obtain ⟨hsigns, hmore⟩ := hf heq
    rw [h.signs hsigns, h'.signs hmore]

/-- A tree around another one. -/
theorem Told.map {β γ : Type} {signs signs' : List Bool} {bare bare' respelled respelled' : β}
    {f : β → γ} (h : Told signs signs' bare bare' respelled respelled')
    (hf : ∀ {a a'}, f a = f a' → a = a') :
    Told signs signs' (f bare) (f bare') (f respelled) (f respelled') where
  length := h.length
  bare heq := congrArg f (h.bare heq)
  signs heq := h.signs (hf heq)

theorem Told.refl {β : Type} (signs : List Bool) (bare : β) {respelled respelled' : β} :
    Told signs signs bare bare respelled respelled' :=
  ⟨rfl, fun _ => rfl, fun _ => rfl⟩

theorem IsLiteral.value_eq {v w : Float} {source : String} (hv : IsLiteral v source)
    (hw : IsLiteral w source) : v = w := by
  obtain ⟨t, htokens, hkind⟩ := hv
  obtain ⟨t', htokens', hkind'⟩ := hw
  rw [htokens] at htokens'
  obtain rfl := (List.cons.inj (Except.ok.inj htokens')).1
  rw [hkind] at hkind'
  exact (TokenKind.number.inj hkind').1

theorem Expr.zeroSigns_zero (id : NodeId) : (Expr.number id 0 none).zeroSigns = [false] := rfl

theorem Expr.zeroSigns_negativeZero (id : NodeId) : (Expr.number id (-0) none).zeroSigns = [true] := rfl

/-- The texts of the two zeros are read back as different trees. -/
theorem Expr.bare_respell_zeros (id id' : NodeId) :
    (Expr.number id 0 none).respell.bare ≠ (Expr.number id' (-0) none).respell.bare := by
  have hzero : (Expr.number id 0 none).respell = .number id 0 (some _) :=
    Expr.respellNumber_positive rfl id
  have hnegative : (Expr.number id' (-0) none).respell = .negate id' _ :=
    Expr.respellNumber_negative rfl id'
  rw [hzero, hnegative]
  intro h
  cases h

theorem Expr.told_number {id id' : NodeId} {v w : Float} {source source' : Option String}
    (hv : (Expr.number id v source).Writable) (hw : (Expr.number id' w source').Writable)
    (halike : (Expr.number id v source).alike (.number id' w source') = true) :
    Told (Expr.number id v source).zeroSigns (Expr.number id' w source').zeroSigns
      (Expr.number id v source).bare (Expr.number id' w source').bare
      (Expr.number id v source).respell.bare (Expr.number id' w source').respell.bare := by
  obtain ⟨hvalue, hsource⟩ := Bool.and_eq_true_iff.mp halike
  obtain rfl := beq_iff_eq.mp hsource
  cases source with
  | some text =>
    obtain rfl := hv.value_eq hw
    exact .refl _ _
  | none =>
    obtain ⟨-, -, rfl | ⟨rfl, rfl⟩ | ⟨rfl, rfl⟩⟩ := Float.beq_iff_ne_nan_and_eq.mp hvalue
    · exact .refl _ _
    · rw [Expr.zeroSigns_zero, Expr.zeroSigns_negativeZero]
      exact ⟨rfl, fun h => absurd h (by decide), fun h => absurd h (Expr.bare_respell_zeros id id')⟩
    · rw [Expr.zeroSigns_zero, Expr.zeroSigns_negativeZero]
      exact ⟨rfl, fun h => absurd h (by decide),
        fun h => absurd h.symm (Expr.bare_respell_zeros id' id)⟩

mutual

theorem Expr.told_of_alike : ∀ {e e' : Expr}, e.alike e' = true → e.Writable → e'.Writable →
    Told e.zeroSigns e'.zeroSigns e.bare e'.bare e.respell.bare e'.respell.bare
  | .number _ _ _, .number _ _ _, h, hv, hw => Expr.told_number hv hw h
  | .var _ _, .var _ _, h, _, _ => by
    obtain rfl := beq_iff_eq.mp h
    exact .refl _ _
  | .binary _ op left right, .binary _ _ left' right', h, ⟨hl, hr⟩, ⟨hl', hr'⟩ => by
    simp only [Expr.alike, Bool.and_eq_true, beq_iff_eq] at h
    obtain ⟨⟨rfl, hleft⟩, hright⟩ := h
    exact (Expr.told_of_alike hleft hl hl').append (f := Expr.binary unnumbered op)
      (Expr.told_of_alike hright hr hr') fun h => ⟨(Expr.binary.inj h).2.2.1, (Expr.binary.inj h).2.2.2⟩
  | .negate _ operand, .negate _ operand', h, hv, hw =>
    have h : operand.alike operand' = true := h
    (Expr.told_of_alike h hv hw).map (f := Expr.negate unnumbered) fun h => (Expr.negate.inj h).2
  | .call _ g args, .call _ _ args', h, ⟨_, hargs⟩, ⟨_, hargs'⟩ => by
    simp only [Expr.alike, Bool.and_eq_true, beq_iff_eq] at h
    obtain ⟨rfl, h⟩ := h
    exact (Expr.told_of_alikeAll h hargs hargs').map (f := Expr.call unnumbered g)
      fun h => (Expr.call.inj h).2.2

theorem Expr.told_of_alikeAll : ∀ {es es' : List Expr}, Expr.alikeAll es es' = true →
    Expr.WritableAll es → Expr.WritableAll es' →
      Told (Expr.zeroSignsAll es) (Expr.zeroSignsAll es') (Expr.bareAll es) (Expr.bareAll es')
        (Expr.bareAll (Expr.respellAll es)) (Expr.bareAll (Expr.respellAll es'))
  | [], [], _, _, _ => .refl _ _
  | _ :: _, _ :: _, h, ⟨he, hes⟩, ⟨he', hes'⟩ =>
    have h := Bool.and_eq_true_iff.mp h
    (Expr.told_of_alike h.1 he he').append (f := List.cons) (Expr.told_of_alikeAll h.2 hes hes')
      fun h => List.cons.inj h

end

mutual

theorem Stmt.told_of_alike : ∀ {s s' : Stmt}, s.alike s' = true → s.Writable → s'.Writable →
    Told s.zeroSigns s'.zeroSigns s.bare s'.bare s.respell.bare s'.respell.bare
  | .define _ g params _ body, .define _ _ params' _ body', h, ⟨_, _, _, hbody⟩,
      ⟨_, _, _, hbody'⟩ => by
    simp only [Stmt.alike, Bool.and_eq_true, beq_iff_eq] at h
    obtain ⟨⟨rfl, hparams⟩, h⟩ := h
    simp only [Stmt.bare, Stmt.respell, hparams]
    exact (Stmt.told_of_alikeAll h hbody hbody').map
      (f := Stmt.define unnumbered g (Grammar.paramList params'.names) unnumbered)
      fun h => (Stmt.define.inj h).2.2.2.2
  | .assign _ x value, .assign _ _ value', h, ⟨_, hvalue⟩, ⟨_, hvalue'⟩ => by
    simp only [Stmt.alike, Bool.and_eq_true, beq_iff_eq] at h
    obtain ⟨rfl, h⟩ := h
    exact (Expr.told_of_alike h hvalue hvalue').map (f := Stmt.assign unnumbered x)
      fun h => (Stmt.assign.inj h).2.2
  | .expr e, .expr e', h, he, he' =>
    have h : e.alike e' = true := h
    (Expr.told_of_alike h he he').map (f := Stmt.expr) fun h => Stmt.expr.inj h

theorem Stmt.told_of_alikeAll : ∀ {ss ss' : List Stmt}, Stmt.alikeAll ss ss' = true →
    Stmt.WritableAll ss → Stmt.WritableAll ss' →
      Told (Stmt.zeroSignsAll ss) (Stmt.zeroSignsAll ss') (Stmt.bareAll ss) (Stmt.bareAll ss')
        (Stmt.bareAll (Stmt.respellAll ss)) (Stmt.bareAll (Stmt.respellAll ss'))
  | [], [], _, _, _ => .refl _ _
  | _ :: _, _ :: _, h, ⟨hs, hss⟩, ⟨hs', hss'⟩ =>
    have h := Bool.and_eq_true_iff.mp h
    (Stmt.told_of_alike h.1 hs hs').append (f := List.cons) (Stmt.told_of_alikeAll h.2 hss hss')
      fun h => List.cons.inj h

end

namespace Program

/-- Programs with one text are read back as one program. -/
theorem bareAll_respell_of_layout {p q : Program} (hp : p.Writable) (hq : q.Writable)
    (h : p.layout = q.layout) :
    Stmt.bareAll p.respell.stmts = Stmt.bareAll q.respell.stmts := by
  have hread : ∀ {r : Program}, r.Writable → ∃ tokens, tokenize r.layout = .ok tokens ∧
      ofTokens tokens = .ok r.respell.numbered := by
    intro r hr
    obtain ⟨tokens, htokens, hread⟩ := reads_layout (p := r.respell) (Stmt.readableAll_respellAll r.stmts hr)
    rw [layout_respell hr] at htokens
    exact ⟨tokens, htokens, hread⟩
  obtain ⟨tokens, htokens, hreadp⟩ := hread hp
  obtain ⟨tokens', htokens', hreadq⟩ := hread hq
  rw [h, htokens'] at htokens
  obtain rfl := Except.ok.inj htokens
  rw [hreadp] at hreadq
  have hstmts := congrArg (fun r : Program => Stmt.bareAll r.stmts) (Except.ok.inj hreadq)
  exact (bareAll_ofStmts _).symm.trans (hstmts.trans (bareAll_ofStmts _))

theorem compile_congr {p q : Program} (h : Stmt.bareAll p.stmts = Stmt.bareAll q.stmts) :
    p.compile = q.compile := by
  change Stmt.compileAll p.stmts = Stmt.compileAll q.stmts
  rw [← Stmt.compileAll_bareAll, h, Stmt.compileAll_bareAll]

theorem Readable.zeroSigns_eq_nil {p : Program} (h : p.Readable) : p.zeroSigns = [] :=
  Stmt.zeroSignsAll_eq_nil h

end Program

/-- What is parsed without folding is readable, and with folding it can still be written down. -/
theorem Program.of_parse {source : String} {fold : Bool} {p : Program}
    (h : (parse source fold).result = .ok p) : p.Writable ∧ (fold = false → p.Readable) := by
  obtain ⟨tokens, q, htokens, hq, rfl⟩ := reads_of_parse_fold h
  have hreadable := readable_of_reads htokens hq
  cases fold with
  | false => exact ⟨hreadable.writable, fun _ => hreadable⟩
  | true => exact ⟨writable_foldFrom _ hreadable.writable, fun h => by cases h⟩

/-- **Programs that are alike** differ in the signs of computed zeros at most. If these are the same,
the programs run alike with every limit on calls, whatever the values of the variables at the start,
and they have one text, which they have not if some sign is another. And if one of the programs was
not folded, there is no difference. -/
theorem Program.alike_correct {source source' : String} {fold fold' : Bool} {p q : Program}
    (hp : (parse source fold).result = .ok p) (hq : (parse source' fold').result = .ok q)
    (halike : p.alike q = true) :
    (p.layout = q.layout ↔ p.zeroSigns = q.zeroSigns) ∧
    (p.zeroSigns = q.zeroSigns → ∀ locals limit,
      p.compile.run locals limit = q.compile.run locals limit) ∧
    (fold = false ∨ fold' = false → p.zeroSigns = q.zeroSigns) := by
  obtain ⟨hpw, hpr⟩ := of_parse hp
  obtain ⟨hqw, hqr⟩ := of_parse hq
  have htold := Stmt.told_of_alikeAll halike hpw hqw
  refine ⟨⟨fun h => htold.signs (bareAll_respell_of_layout hpw hqw h),
    fun h => layout_congr (htold.bare h)⟩, fun h locals limit => ?_, fun h => ?_⟩
  · rw [compile_congr (htold.bare h)]
  · have hlength : p.zeroSigns.length = q.zeroSigns.length := htold.length
    rcases h with h | h
    · rw [(hpr h).zeroSigns_eq_nil] at hlength ⊢
      exact (List.length_eq_zero_iff.mp hlength.symm).symm
    · rw [(hqr h).zeroSigns_eq_nil] at hlength ⊢
      exact List.length_eq_zero_iff.mp hlength

/-- The program that folding leaves of an expression with a value. -/
def Program.literal (id : NodeId) (v : Float) : Program :=
  { id := 0, body := { id := 1, stmts := [.expr (.number id v none)] } }

/-- The zeros that `1 - 1` and `-0` fold to are alike, and are told apart by their texts. -/
theorem Program.alike_correct_zeros :
    (parse "1 - 1" true).result = .ok (.literal 5 0) ∧
      (parse "-0" true).result = .ok (.literal 4 (-0)) ∧
      (Program.literal 5 0).alike (.literal 4 (-0)) = true ∧
      (Program.literal 5 0).layout ≠ (Program.literal 4 (-0)).layout := by
  have hzero : (parse "1 - 1" true).result = .ok (.literal 5 0) := rfl
  have hnegative : (parse "-0" true).result = .ok (.literal 4 (-0)) := rfl
  have halike : (Program.literal 5 0).alike (.literal 4 (-0)) = true := rfl
  obtain ⟨hlayout, -, -⟩ := Program.alike_correct hzero hnegative halike
  refine ⟨hzero, hnegative, halike, fun h => ?_⟩
  have hsigns : [false] = [true] := hlayout.mp h
  cases hsigns

/-- Their values are zeros of different signs. -/
example : ((Program.literal 5 0).evaluate none).result.toOption.map Decimal.isNegative = some false ∧
    ((Program.literal 4 (-0)).evaluate none).result.toOption.map Decimal.isNegative = some true := by
  decide +kernel

end Abacus
