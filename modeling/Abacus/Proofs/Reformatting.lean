import Abacus.Proofs.Formatting
import Abacus.Proofs.Settled

/-!
# Formatting twice

The canonical text of a source is its own canonical text. Without folding that is reading back what
was read (`Program.reads_layout_of_reads`). With folding the second pass sees another tree than the
one that was written: a computed literal comes back as one that has a text, and a negative one as a
negation. Folding takes these negations back and finds nothing else, since the tree was settled; what
is left differs from the tree that was written in ids and in texts of literals that are the shortest
ones anyway (`Stmt.refold_respells`), and the canonical text shows neither.
-/
namespace Abacus

/-! ## The text looks at no id -/

theorem Layout.juxtaposed?_bare (op : Operator) (left right : Expr) :
    juxtaposed? op left.bare right.bare = juxtaposed? op left right := by
  cases left <;> cases right <;> cases op <;> rfl

mutual

theorem Expr.layout_bare : ∀ (e : Expr) (tight : Nat), Layout.expr tight e.bare = Layout.expr tight e
  | .number _ _ _, _ => rfl
  | .var _ _, _ => rfl
  | .binary _ op left right, _ => by
    simp only [Expr.bare, Layout.expr, Layout.juxtaposed?_bare, left.layout_bare, right.layout_bare]
  | .negate _ operand, _ => by
    simp only [Expr.bare, Layout.expr, operand.layout_bare]
  | .call _ _ args, _ => by
    simp only [Expr.bare, Layout.expr, Expr.layoutAll_bareAll args]

theorem Expr.layoutAll_bareAll : ∀ es : List Expr, Layout.exprs (Expr.bareAll es) = Layout.exprs es
  | [] => rfl
  | e :: rest => by
    simp only [Expr.bareAll, Layout.exprs, e.layout_bare, Expr.layoutAll_bareAll rest]

end

theorem Layout.head_bare (f : String) (params : ParamList) :
    head f (Grammar.paramList params.names) = head f params := by
  simp only [head, Grammar.names_paramList]

mutual

theorem Stmt.layout_bare : ∀ (s : Stmt) (depth : Nat),
    Layout.stmt depth s.bare = Layout.stmt depth s
  | .define _ f params _ [], _ => by
    simp only [Stmt.bare, Stmt.bareAll, Layout.stmt, Layout.head_bare]
  | .define _ f params _ [single], depth => by
    simp only [Stmt.bare, Stmt.bareAll, Layout.stmt, Layout.head_bare, single.layout_bare depth]
  | .define _ f params _ (first :: second :: rest), depth => by
    have hall := Stmt.layoutAll_bareAll (first :: second :: rest) (depth + 1)
    simp only [Stmt.bareAll] at hall
    simp only [Stmt.bare, Stmt.bareAll, Layout.stmt, Layout.head_bare, hall]
  | .assign _ _ value, _ => by
    simp only [Stmt.bare, Layout.stmt, value.layout_bare]
  | .expr e, _ => e.layout_bare 0

theorem Stmt.layoutAll_bareAll : ∀ (ss : List Stmt) (depth : Nat),
    Layout.stmts depth (Stmt.bareAll ss) = Layout.stmts depth ss
  | [], _ => rfl
  | s :: rest, depth => by
    simp only [Stmt.bareAll, Layout.stmts, s.layout_bare depth, Stmt.layoutAll_bareAll rest depth]

end

theorem Program.layout_congr {p q : Program} (h : Stmt.bareAll p.stmts = Stmt.bareAll q.stmts) :
    p.layout = q.layout := by
  rw [layout_eq, layout_eq, ← Stmt.layoutAll_bareAll p.stmts, h, Stmt.layoutAll_bareAll]

/-! ## Folding what was read back -/

theorem Expr.respellNumber_negative {v : Float} (h : Decimal.isNegative v = true) (id : NodeId) :
    Expr.respellNumber id v none =
      .negate id (.number id (-v) (some (String.ofList (Decimal.magnitude v)))) := by
  simp [Expr.respellNumber, h]

theorem Expr.respellNumber_positive {v : Float} (h : Decimal.isNegative v = false) (id : NodeId) :
    Expr.respellNumber id v none =
      .number id v (some (String.ofList (Decimal.magnitude v))) := by
  simp [Expr.respellNumber, h]

/-- The negation of a number folds to the literal of the value. -/
theorem Expr.foldFrom_negated {v : Float} (h : v.isFinite = true) (id id' : NodeId)
    (text : Option String) (next : NodeId) :
    (Expr.negate id (.number id' (-v) text)).foldFrom next = (.number next v none, next + 1) := by
  simp [Expr.foldFrom, Expr.value?, literalOr, Floats.neg_neg_of_isFinite h, h]

/-- The expression as it comes out of a second pass: read back, numbered and folded. -/
def Expr.refold (first next : NodeId) (e : Expr) : Expr :=
  ((e.respell.numberFrom first).1.foldFrom next).1

/-- Two expressions are literals of one value or no literals, and are read back alike. -/
structure Expr.Respells (e e' : Expr) : Prop where
  value : e.value? = e'.value?
  bare : e.respell.bare = e'.respell.bare

/-- A literal with a text stays as it is, and so does a computed one but for the text that it gets. A
negative one is read back as a negation, and folds to what it was. -/
theorem Expr.refold_respells_number {id : NodeId} {v : Float} {source : Option String}
    (h : (Expr.number id v source).Writable) (first next : NodeId) :
    ((Expr.number id v source).refold first next).Respells (.number id v source) := by
  cases source with
  | some text => exact ⟨rfl, rfl⟩
  | none =>
    unfold Expr.refold
    cases hsign : Decimal.isNegative v with
    | false =>
      have hspelled := fun i => Expr.respellNumber_positive hsign i
      constructor
      · rw [Expr.respell, hspelled]
        rfl
      · rw [Expr.respell, hspelled]
        rfl
    | true =>
      have hspelled := fun i => Expr.respellNumber_negative hsign i
      have hrefold : ((Expr.number id v none).respell.numberFrom first).1.foldFrom next =
          (.number next v none, next + 1) := by
        rw [Expr.respell, hspelled]
        exact Expr.foldFrom_negated h first (first + 1) _ next
      rw [hrefold]
      refine ⟨rfl, ?_⟩
      simp only [Expr.respell, hspelled, Expr.bare]

/-- Operators between literals of the same values have the same value. -/
theorem Expr.Respells.fold? {left left' right right' : Expr} (hleft : left.Respells left')
    (hright : right.Respells right') (op : Operator) :
    op.fold? left right = op.fold? left' right' := by
  simp only [Operator.fold?, hleft.value, hright.value]

def Expr.refoldAll (first next : NodeId) (es : List Expr) : List Expr :=
  (Expr.foldAllFrom next (Expr.numberAllFrom first (Expr.respellAll es)).1).1

mutual

/-- A second pass changes nothing but ids and texts of computed literals: what is settled stays, for
its operands keep their values. -/
theorem Expr.refold_respells : ∀ e : Expr, e.Writable → e.Settled → ∀ first next : NodeId,
    (e.refold first next).Respells e
  | .number _ _ _, hwritable, _, first, next => Expr.refold_respells_number hwritable first next
  | .var _ _, _, _, _, _ => ⟨rfl, rfl⟩
  | .binary id op left right, ⟨hleft, hright⟩, ⟨hsettled, hsettled', hvalue⟩, first, next => by
    have ihleft := left.refold_respells hleft hsettled (first + 1) next
    have ihright := right.refold_respells hright hsettled'
      (left.respell.numberFrom (first + 1)).2
      ((left.respell.numberFrom (first + 1)).1.foldFrom next).2
    have hkept : (Expr.binary id op left right).refold first next = .binary first op
        (left.refold (first + 1) next)
        (right.refold (left.respell.numberFrom (first + 1)).2
          ((left.respell.numberFrom (first + 1)).1.foldFrom next).2) := by
      rw [← ihleft.fold? ihright op] at hvalue
      exact congrArg Prod.fst (literalOr_of_noLiteral hvalue _ _)
    rw [hkept]
    refine ⟨rfl, ?_⟩
    simp only [Expr.respell, Expr.bare, ihleft.bare, ihright.bare]
  | .negate id operand, hwritable, ⟨hsettled, hvalue⟩, first, next => by
    have ih := operand.refold_respells hwritable hsettled (first + 1) next
    have hkept : (Expr.negate id operand).refold first next =
        .negate first (operand.refold (first + 1) next) := by
      rw [← ih.value] at hvalue
      exact congrArg Prod.fst (literalOr_of_noLiteral hvalue _ _)
    rw [hkept]
    refine ⟨rfl, ?_⟩
    simp only [Expr.respell, Expr.bare, ih.bare]
  | .call id f args, ⟨_, hargs⟩, hsettled, first, next => by
    have ih := Expr.refoldAll_respells args hargs hsettled (first + 1) next
    have hkept : (Expr.call id f args).refold first next =
        .call first f (Expr.refoldAll (first + 1) next args) := rfl
    rw [hkept]
    refine ⟨rfl, ?_⟩
    simp only [Expr.respell, Expr.bare, ih]

theorem Expr.refoldAll_respells : ∀ es : List Expr, Expr.WritableAll es → Expr.SettledAll es →
    ∀ first next : NodeId, Expr.bareAll (Expr.respellAll (Expr.refoldAll first next es)) =
      Expr.bareAll (Expr.respellAll es)
  | [], _, _, _, _ => rfl
  | e :: rest, ⟨he, hrest⟩, ⟨hsettled, hsettled'⟩, first, next => by
    have ih := e.refold_respells he hsettled first next
    have ihrest := Expr.refoldAll_respells rest hrest hsettled' (e.respell.numberFrom first).2
      ((e.respell.numberFrom first).1.foldFrom next).2
    change Expr.bareAll (Expr.respellAll (e.refold first next :: Expr.refoldAll _ _ rest)) = _
    simp only [Expr.respellAll, Expr.bareAll, ih.bare, ihrest]

end

/-- The statements as they come out of a second pass. -/
def Stmt.refoldAll (first next : NodeId) (ss : List Stmt) : List Stmt :=
  (Stmt.foldAllFrom next (Stmt.numberAllFrom first (Stmt.respellAll ss)).1).1

def Stmt.refold (first next : NodeId) (s : Stmt) : Stmt :=
  ((s.respell.numberFrom first).1.foldFrom next).1

mutual

theorem Stmt.refold_respells : ∀ s : Stmt, s.Writable → s.Settled → ∀ first next : NodeId,
    (s.refold first next).respell.bare = s.respell.bare
  | .define id f params bodyId body, ⟨_, _, _, hbody⟩, hsettled, first, next => by
    have ih := Stmt.refoldAll_respells body hbody hsettled ((params.numberFrom (first + 1)).2 + 1) next
    have hkept : (Stmt.define id f params bodyId body).refold first next =
        .define first f (params.numberFrom (first + 1)).1 (params.numberFrom (first + 1)).2
          (Stmt.refoldAll ((params.numberFrom (first + 1)).2 + 1) next body) := rfl
    rw [hkept]
    simp only [Stmt.respell, Stmt.bare, params.names_numberFrom, ih]
  | .assign id x value, ⟨_, hvalue⟩, hsettled, first, next => by
    have ih := value.refold_respells hvalue hsettled (first + 1) next
    have hkept : (Stmt.assign id x value).refold first next =
        .assign first x (value.refold (first + 1) next) := rfl
    rw [hkept]
    simp only [Stmt.respell, Stmt.bare, ih.bare]
  | .expr e, hwritable, hsettled, first, next => by
    have ih := e.refold_respells hwritable hsettled first next
    have hkept : (Stmt.expr e).refold first next = .expr (e.refold first next) := rfl
    rw [hkept]
    simp only [Stmt.respell, Stmt.bare, ih.bare]

theorem Stmt.refoldAll_respells : ∀ ss : List Stmt, Stmt.WritableAll ss → Stmt.SettledAll ss →
    ∀ first next : NodeId, Stmt.bareAll (Stmt.respellAll (Stmt.refoldAll first next ss)) =
      Stmt.bareAll (Stmt.respellAll ss)
  | [], _, _, _, _ => rfl
  | s :: rest, ⟨hs, hrest⟩, ⟨hsettled, hsettled'⟩, first, next => by
    have ih := s.refold_respells hs hsettled first next
    have ihrest := Stmt.refoldAll_respells rest hrest hsettled' (s.respell.numberFrom first).2
      ((s.respell.numberFrom first).1.foldFrom next).2
    change Stmt.bareAll (Stmt.respellAll (s.refold first next :: Stmt.refoldAll _ _ rest)) = _
    simp only [Stmt.respellAll, Stmt.bareAll, ih, ihrest]

end

namespace Program

/-- A settled program that can be written down has the text of what is read back from that text and
folded. -/
theorem layout_refold {p : Program} (hwritable : p.Writable) (hsettled : p.Settled) :
    p.respell.numbered.fold.layout = p.layout := by
  have hreadable : p.respell.numbered.Readable :=
    (readable_ofStmts _).mpr (Stmt.readableAll_respellAll p.stmts hwritable)
  have hrefolded := writable_foldFrom (freshId p.respell.numbered.nodeIds) hreadable.writable
  rw [← layout_respell hwritable, ← layout_respell (p := p.respell.numbered.fold) hrefolded]
  exact layout_congr (Stmt.refoldAll_respells p.stmts hwritable hsettled 2 _)

end Program

/-! ## Formatting twice -/

theorem format_of_reads {source : String} {tokens : List Token} {p : Program}
    (htokens : tokenize source = .ok tokens) (hp : Program.ofTokens tokens = .ok p)
    (options : Options) :
    (format source options).result = .ok (if options.fold then p.fold else p).layout := by
  rw [format, Traced.result_bind, parse_of_reads htokens hp]
  rfl

/-- **Formatting is idempotent**: the text that it makes of a source that is a program is one that it
makes itself of, folding or not. -/
theorem format_idempotent (source : String) (hparses : ∃ p, (parse source false).result = .ok p)
    (options : Options) :
    ∃ text, (format source options).result = .ok text ∧
      (format text options).result = .ok text := by
  obtain ⟨p, hparse⟩ := hparses
  obtain ⟨tokens, htokens, hp⟩ := reads_of_parse hparse
  refine ⟨_, format_of_reads htokens hp options, ?_⟩
  cases hfold : options.fold with
  | false =>
    obtain ⟨tokens', htokens', hp'⟩ := Program.reads_layout_of_reads htokens hp
    simpa [hfold] using format_of_reads htokens' hp' options
  | true =>
    have hwritable : p.fold.Writable :=
      Program.writable_foldFrom _ (Program.readable_of_reads htokens hp).writable
    have hreadable : p.fold.respell.Readable := Stmt.readableAll_respellAll p.fold.stmts hwritable
    obtain ⟨tokens', htokens', hp'⟩ := Program.reads_layout hreadable
    rw [Program.layout_respell hwritable] at htokens'
    have htwice := format_of_reads htokens' hp' options
    rw [hfold, if_pos rfl, Program.layout_refold hwritable p.settled_fold] at htwice
    simpa using htwice

/-- `1 - 4` and `4 * 2` become literals, the one written in brackets and the other directly before a
name; the negation of an infinite literal stays. Read back, the first is a negation that folds again. -/
theorem format_idempotent_negativeLiteral :
    (∃ p, (parse "y = 2\n(1 - 4) ^ y - (4 * 2) * y\n-1e999" false).result = .ok p) ∧
      (format "y = 2\n(1 - 4) ^ y - (4 * 2) * y\n-1e999" { fold := true, maxCallDepth := none }).result =
        .ok "y = 2\n(-3) ^ y - 8y\n-1e999" ∧
      (format "y = 2\n(-3) ^ y - 8y\n-1e999" { fold := true, maxCallDepth := none }).result =
        .ok "y = 2\n(-3) ^ y - 8y\n-1e999" := by
  have hparses : ∃ p, (parse "y = 2\n(1 - 4) ^ y - (4 * 2) * y\n-1e999" false).result = .ok p := by
    have hsome : (parse "y = 2\n(1 - 4) ^ y - (4 * 2) * y\n-1e999" false).result.toOption.isSome =
        true := by
      decide +kernel
    obtain ⟨p, hp⟩ := Option.isSome_iff_exists.mp hsome
    exact ⟨p, ok_of_toOption hp⟩
  have htext : (format "y = 2\n(1 - 4) ^ y - (4 * 2) * y\n-1e999"
      { fold := true, maxCallDepth := none }).result =
        .ok "y = 2\n(-3) ^ y - 8y\n-1e999" := ok_of_toOption (by decide +kernel)
  obtain ⟨text, hformat, hagain⟩ := format_idempotent "y = 2\n(1 - 4) ^ y - (4 * 2) * y\n-1e999"
    hparses { fold := true, maxCallDepth := none }
  rw [htext] at hformat
  obtain rfl := Except.ok.inj hformat
  exact ⟨hparses, htext, hagain⟩

end Abacus
