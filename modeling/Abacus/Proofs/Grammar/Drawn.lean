import Abacus.Proofs.Fresh
import Abacus.Proofs.Grammar.Drawing
import Abacus.Proofs.Grammar.Rules
import Abacus.Proofs.Layout.Readable

/-!
# Ids that are drawn are different

Reading with a supply takes the same tokens as reading without one, fails with the same errors, and
makes the same trees but for the ids. Whatever the alternatives drew that were given up, an id in a
tree was drawn for its node and no other. `Follows` says both of a rule and its drawing, part by part
along the grammar; the ids that a part holds are those of the parts it has read before (`held`), each at
most as often, and drawn ones.
-/
namespace Abacus

/-! ## Trees with ids and without -/

/-- What a rule makes and what its drawing makes. -/
class Drawn (α : outParam Type) (β : Type) where
  /-- They are the same but for the ids. -/
  same : α → β → Prop
  ids : β → List NodeId

namespace Drawn

instance : Drawn Expr Expr where
  same e e' := e'.bare = e.bare
  ids := Expr.nodeIds

instance : Drawn Param Param where
  same p p' := p'.name = p.name
  ids p := [p.id]

instance : Drawn Stmt Stmt where
  same s s' := s'.bare = s.bare
  ids := Stmt.nodeIds

/-- A list of statements becomes a block when it gets its id. -/
instance : Drawn (List Stmt) Block where
  same ss b := Stmt.bareAll b.stmts = Stmt.bareAll ss
  ids := Block.nodeIds

instance : Drawn (List Stmt) Program where
  same ss p := Stmt.bareAll p.stmts = Stmt.bareAll ss
  ids := Program.nodeIds

section
variable {α β κ : Type} [Drawn α β]

instance : Drawn (Option α) (Option β) where
  same := Option.Rel same
  ids b := b.elim [] ids

instance : Drawn (List α) (List β) where
  same := List.Forall₂ same
  ids bs := bs.flatMap ids

instance : Drawn (κ × α) (κ × β) where
  same a b := a.1 = b.1 ∧ same a.2 b.2
  ids b := ids b.2

end

/-! ### Lists of expressions, parameters and statements -/

theorem ids_exprs (es : List Expr) : ids es = Expr.nodeIdsAll es := by
  induction es with
  | nil => rfl
  | cons e rest ih => exact congrArg (e.nodeIds ++ ·) ih

theorem ids_stmts (ss : List Stmt) : ids ss = Stmt.nodeIdsAll ss := by
  induction ss with
  | nil => rfl
  | cons s rest ih => exact congrArg (s.nodeIds ++ ·) ih

theorem ids_params (ps : List Param) : ids ps = ps.map Param.id := by
  induction ps with
  | nil => rfl
  | cons p rest ih => exact congrArg (p.id :: ·) ih

theorem bareAll_of_same {es es' : List Expr} (h : same es es') :
    Expr.bareAll es' = Expr.bareAll es := by
  induction h with
  | nil => rfl
  | cons hfirst _ ih => exact congrArg₂ List.cons hfirst ih

theorem stmts_of_same {ss ss' : List Stmt} (h : same ss ss') :
    Stmt.bareAll ss' = Stmt.bareAll ss := by
  induction h with
  | nil => rfl
  | cons hfirst _ ih => exact congrArg₂ List.cons hfirst ih

theorem names_of_same {ps ps' : List Param} (h : same ps ps') :
    ps'.map Param.name = ps.map Param.name := by
  induction h with
  | nil => rfl
  | cons hfirst _ ih => exact congrArg₂ List.cons hfirst ih

end Drawn

open Drawn (same ids)

/-! ## Rules without inner phrases -/

/-- What the rule comes to does not depend on how inner phrases are read. -/
def Rule.Closed {κ : Type} (rule : Rule κ) : Prop :=
  ∀ inner inner', rule.run inner = rule.run inner'

namespace Rule

section
variable {α β : Type}

theorem closed_pure (a : α) : (pure a : Rule α).Closed := by
  intro inner inner'
  funext tokens
  rfl

theorem closed_token (expected : String) (accept : Token → Option α) :
    (token expected accept).Closed := by
  intro inner inner'
  funext tokens
  cases tokens <;> rfl

theorem Closed.bind {first : Rule α} {next : α → Rule β} (hfirst : first.Closed)
    (hnext : ∀ a, (next a).Closed) : (first >>= next).Closed := by
  intro inner inner'
  funext tokens
  simp only [run_bind, hfirst inner inner', hnext _ inner inner']

theorem Closed.orElse {first second : Rule α} (hfirst : first.Closed) (hsecond : second.Closed) :
    (first.orElse second).Closed := by
  intro inner inner'
  funext tokens
  simp only [run, hfirst inner inner', hsecond inner inner']

theorem Closed.optional {rule : Rule α} (h : rule.Closed) : rule.optional.Closed := by
  intro inner inner'
  funext tokens
  simp only [run, h inner inner']

theorem Closed.skip {first : Rule α} {second : Rule β} (hfirst : first.Closed)
    (hsecond : second.Closed) : (first.skip second).Closed :=
  hfirst.bind fun a => hsecond.bind fun _ => closed_pure a

theorem Closed.skipLeft {first : Rule α} {second : Rule β} (hfirst : first.Closed)
    (hsecond : second.Closed) : (first.skipLeft second).Closed :=
  hfirst.bind fun _ => hsecond

end

theorem closed_symbol (s : Symbol) : (symbol s).Closed :=
  closed_token _ _

theorem closed_newline : newline.Closed :=
  closed_token _ _

theorem closed_name : name.Closed :=
  (closed_token _ _).bind fun _ => closed_pure _

theorem closed_spannedName : spannedName.Closed :=
  closed_token _ _

theorem closed_operator (s : Symbol) (op : Operator) : (operator s op).Closed :=
  (closed_symbol s).bind fun _ => closed_pure op

theorem closed_additive : additive.Closed :=
  (closed_operator _ _).orElse (closed_operator _ _)

theorem closed_multiplicative : multiplicative.Closed :=
  (closed_operator _ _).orElse ((closed_operator _ _).orElse (closed_operator _ _))

theorem closed_ownName (name : String) (span : Text.Span) : (ownName name span).Closed := by
  intro inner inner'
  funext tokens
  unfold ownName
  split <;> rfl

end Rule

/-! ## Following a rule -/

section
variable {α β γ δ : Type} [Drawn α β] [Drawn γ δ]

/-- Both come to the same; of the ids in what is made, those that were not drawn are held. -/
inductive Mirrors (held : List NodeId) (next : NodeId) : Outcome α → Outcome β × NodeId → Prop
  | ok {a : α} {b : β} {rest : List Token} {after : NodeId} (hsame : same a b)
      (hdraws : Draws held (ids b) next after) :
      Mirrors held next { result := .ok a, rest } ({ result := .ok b, rest }, after)
  | error {e : SyntaxError} {rest : List Token} {after : NodeId} (hle : next ≤ after) :
      Mirrors held next { result := .error e, rest } ({ result := .error e, rest }, after)

/-- The drawing comes to what the reading comes to, wherever the supply is. -/
def Follows (held : List NodeId) (read : List Token → Outcome α) (drawing : Drawing β) : Prop :=
  ∀ next tokens, Mirrors held next (read tokens) (drawing next tokens)

theorem Mirrors.after {held held' : List NodeId} {next middle : NodeId} {x : Outcome α}
    {y : Outcome β × NodeId} (h : Mirrors held' middle x y) (hdraws : Draws held held' next middle) :
    Mirrors held next x y := by
  cases h with
  | ok hsame hdraws' => exact .ok hsame (hdraws.trans hdraws')
  | error hle => exact .error (Nat.le_trans hdraws.le hle)

namespace Follows

variable {held : List NodeId} {inner : Rule.Inner}

/-- The ids at hand may come in any order. -/
theorem pure_of_le {a : α} {b : β} (hsame : same a b)
    (hids : ∀ id, (ids b).count id ≤ held.count id) :
    Follows held ((Pure.pure a : Rule α).run inner) (Pure.pure b) :=
  fun _ _ => .ok hsame (.of_le (Nat.le_refl _) hids)

theorem pure {a : α} {b : β} (hsame : same a b) (hids : ids b = held) :
    Follows held ((Pure.pure a : Rule α).run inner) (Pure.pure b) :=
  pure_of_le hsame fun id => Nat.le_of_eq (congrArg (List.count id) hids)

/-- One part behind the other, the first one with ids it has read before. -/
theorem bind_held {more : List NodeId} {first : Rule α} {first' : Drawing β} {f : α → Rule γ}
    {f' : β → Drawing δ} (hfirst : Follows more (first.run inner) first')
    (hnext : ∀ a b, same a b → Follows (held ++ ids b) ((f a).run inner) (f' b)) :
    Follows (held ++ more) ((first >>= f).run inner) (first' >>= f') := by
  intro next tokens
  have hmirrors := hfirst next tokens
  rw [Rule.run_bind]
  unfold Bind.bind Monad.toBind Drawing.instMonad
  dsimp only
  generalize first.run inner tokens = x, first' next tokens = y at hmirrors
  cases hmirrors with
  | ok hsame hdraws => exact (hnext _ _ hsame _ _).after ((Draws.refl held _).append hdraws)
  | error hle => exact .error hle

theorem bind {first : Rule α} {first' : Drawing β} {f : α → Rule γ} {f' : β → Drawing δ}
    (hfirst : Follows [] (first.run inner) first')
    (hnext : ∀ a b, same a b → Follows (held ++ ids b) ((f a).run inner) (f' b)) :
    Follows held ((first >>= f).run inner) (first' >>= f') := by
  have hbind := bind_held hfirst hnext
  rwa [List.append_nil] at hbind

/-- The reading goes on; the drawing draws an id first. -/
theorem fresh {read : List Token → Outcome α} {f : NodeId → Drawing β}
    (h : ∀ id, Follows (id :: held) read (f id)) : Follows held read (Drawing.fresh >>= f) :=
  fun next tokens => (h next (next + 1) tokens).after (.fresh held next)

/-- A rule without nodes, which both run. -/
theorem ofRule {κ : Type} {rule : Rule κ} {f : κ → Rule α} {f' : κ → Drawing β}
    (hclosed : rule.Closed) (h : ∀ a, Follows held ((f a).run inner) (f' a)) :
    Follows held ((rule >>= f).run inner) (Drawing.ofRule rule >>= f') := by
  intro next tokens
  rw [Rule.run_bind, hclosed inner (Rule.innerTo 0)]
  unfold Bind.bind Monad.toBind Drawing.instMonad Drawing.ofRule
  dsimp only
  generalize rule.run (Rule.innerTo 0) tokens = x
  obtain ⟨result, rest⟩ := x
  cases result with
  | ok a => exact h a next rest
  | error e => exact .error (Nat.le_refl _)

theorem skip {κ : Type} {first : Rule α} {first' : Drawing β} {second : Rule κ}
    (hfirst : Follows [] (first.run inner) first') (hclosed : second.Closed) :
    Follows [] ((first.skip second).run inner) (first'.skip (.ofRule second)) :=
  bind hfirst fun _ _ hsame => ofRule hclosed fun _ => pure hsame rfl

theorem skipLeft {κ : Type} {first : Rule κ} {second : Rule α} {second' : Drawing β}
    (hclosed : first.Closed) (hsecond : Follows held (second.run inner) second') :
    Follows held ((first.skipLeft second).run inner) ((Drawing.ofRule first).skipLeft second') :=
  ofRule hclosed fun _ => hsecond

/-! ### Choices -/

theorem orElse {first second : Rule α} {first' second' : Drawing β}
    (hfirst : Follows held (first.run inner) first')
    (hsecond : Follows held (second.run inner) second') :
    Follows held ((first.orElse second).run inner) (first'.orElse second') := by
  intro next tokens
  have hmirrors := hfirst next tokens
  unfold Rule.run Drawing.orElse
  generalize first.run inner tokens = x, first' next tokens = y at hmirrors
  cases hmirrors with
  | ok hsame hdraws => exact .ok hsame hdraws
  | error hle =>
    dsimp only
    split
    · exact .error hle
    · exact (hsecond _ tokens).after (.skipped held hle)

theorem label {name : String} {rule : Rule α} {drawing : Drawing β}
    (h : Follows held (rule.run inner) drawing) :
    Follows held ((Rule.label name rule).run inner) (drawing.label name) := by
  intro next tokens
  have hmirrors := h next tokens
  unfold Rule.run Drawing.label
  generalize rule.run inner tokens = x, drawing next tokens = y at hmirrors
  cases hmirrors with
  | ok hsame hdraws => exact .ok hsame hdraws
  | error hle => exact .error hle

theorem commit {name : String} {rule : Rule α} {drawing : Drawing β}
    (h : Follows held (rule.run inner) drawing) :
    Follows held ((Rule.commit name rule).run inner) (drawing.commit name) := by
  intro next tokens
  have hmirrors := h next tokens
  unfold Rule.run Drawing.commit
  generalize rule.run inner tokens = x, drawing next tokens = y at hmirrors
  cases hmirrors with
  | ok hsame hdraws => exact .ok hsame hdraws
  | error hle =>
    dsimp only
    split <;> exact .error hle

theorem optional {rule : Rule α} {drawing : Drawing β} (h : Follows held (rule.run inner) drawing) :
    Follows held (rule.optional.run inner) drawing.optional := by
  intro next tokens
  have hmirrors := h next tokens
  unfold Rule.run Drawing.optional
  generalize rule.run inner tokens = x, drawing next tokens = y at hmirrors
  cases hmirrors with
  | ok hsame hdraws => exact .ok (.some hsame) hdraws
  | error hle =>
    dsimp only
    split
    · exact .error hle
    · exact .ok .none (.of_le hle fun _ => Nat.zero_le _)

theorem repeatStep {step : List Token → Outcome (Option α)} {step' : Drawing (Option β)}
    (h : Follows [] step step') (turns : Nat) :
    Follows [] (Rule.repeatStep step turns) (Drawing.repeatStep step' turns) := by
  induction turns with
  | zero => exact fun _ _ => .ok .nil (.refl [] _)
  | succ turns ih =>
    intro next tokens
    have hmirrors := h next tokens
    unfold Rule.repeatStep Drawing.repeatStep Bind.bind Monad.toBind Drawing.instMonad
    dsimp only
    generalize step tokens = x, step' next tokens = y at hmirrors
    cases hmirrors with
    | error hle => exact .error hle
    | @ok _ _ rest after hsame hdraws =>
      cases hsame with
      | none => exact .ok .nil hdraws
      | some hsame =>
        have hmore := ih after rest
        dsimp only
        generalize Rule.repeatStep step turns rest = x,
          Drawing.repeatStep step' turns after rest = y at hmore
        cases hmore with
        | error hle => exact .error (Nat.le_trans hdraws.le hle)
        | ok hsames hdraws' => exact .ok (.cons hsame hsames) (hdraws.append hdraws')

theorem repeated {rule : Rule (Option α)} {drawing : Drawing (Option β)}
    (h : Follows [] (rule.run inner) drawing) :
    Follows [] (rule.repeated.run inner) drawing.repeated := by
  intro next tokens
  exact h.repeatStep (tokens.length + 1) next tokens

/-- A turn that goes on only behind an opening token. -/
theorem opened {κ : Type} {opener : Rule κ} {next : Option κ → Rule (Option α)}
    {next' : Option κ → Drawing (Option β)} (hclosed : opener.Closed)
    (hnone : next none = Pure.pure none) (hnone' : next' none = Pure.pure none)
    (hsome : ∀ k, Follows [] ((next (some k)).run inner) (next' (some k))) :
    Follows [] ((opener.optional >>= next).run inner) (.ofRule opener.optional >>= next') := by
  refine .ofRule hclosed.optional fun choice => ?_
  cases choice with
  | none =>
    rw [hnone, hnone']
    exact .pure .none rfl
  | some k => exact hsome k

theorem present {rule : Rule α} {drawing : Drawing β} (h : Follows [] (rule.run inner) drawing) :
    Follows [] ((do let a ← rule; Pure.pure (some a) : Rule (Option α)).run inner)
      (do let b ← drawing; Pure.pure (some b)) :=
  .bind h fun _ _ hsame => .pure (.some hsame) rfl

/-- A list of which the first element has been read. -/
theorem more {rule : Rule (Option α)} {drawing : Drawing (Option β)}
    (h : Follows [] (rule.run inner) drawing) {a : α} {b : β} (hsame : same a b) :
    Follows (ids b) ((do let as ← rule.repeated; Pure.pure (a :: as) : Rule (List α)).run inner)
      (do let bs ← drawing.repeated; Pure.pure (b :: bs)) :=
  .bind h.repeated fun _ _ hrest => .pure (.cons hsame hrest) rfl

end Follows
end

/-! ## The grammar -/

namespace Drawing

open Rule (closed_symbol closed_name closed_operator)

/-! ### Expressions -/

section
variable {inner : Rule.Inner}

theorem follows_number : Follows [] (Rule.number.run inner) number := by
  intro next tokens
  cases tokens with
  | nil => exact .error (Nat.le_refl _)
  | cons t rest =>
    obtain ⟨kind, span⟩ := t
    cases kind with
    | number value source => exact .ok rfl (.fresh [] next)
    | _ => exact .error (Nat.le_refl _)

theorem follows_var : Follows [] (Rule.var.run inner) var :=
  .ofRule closed_name fun _ => .fresh fun _ => .pure rfl rfl

theorem follows_juxtaposed : Follows [] (Rule.juxtaposed.run inner) juxtaposed := by
  refine .bind follows_number fun e e' hsame => .ofRule closed_name fun name => ?_
  refine .fresh fun var => .fresh fun id => .pure_of_le ?_ fun i => ?_
  · exact congrArg (Expr.binary unnumbered .multiply · (.var unnumbered name)) hsame
  · simp only [ids, Expr.nodeIds, List.count_append, List.count_cons, List.count_nil]
    omega

/-- The operators draw from the last to the first. -/
theorem follows_nestRight {first first' : Expr} {rest rest' : List (Operator × Expr)}
    (hfirst : same first first') (hrest : same rest rest') :
    Follows (ids first' ++ ids rest') ((pure (Rule.nestRight first rest) : Rule Expr).run inner)
      (nestRight first' rest') := by
  induction hrest generalizing first first' with
  | nil => exact .pure hfirst (List.append_nil _).symm
  | @cons link link' rest rest' hlink _ ih =>
    obtain ⟨op, next⟩ := link
    obtain ⟨_, next'⟩ := link'
    obtain ⟨rfl, hnext⟩ := hlink
    refine .bind_held (f := fun right => pure (Expr.binary unnumbered op first right)) (ih hnext) ?_
    intro right right' hright
    refine .fresh fun id => .pure_of_le ?_ fun i => ?_
    · exact congrArg₂ (Expr.binary unnumbered op · ·) hfirst hright
    · simp only [ids, Expr.nodeIds, List.count_append, List.count_cons]
      omega

theorem follows_chain {operand : Rule Expr} {operand' : Drawing Expr} {operator : Rule Operator}
    {what : String} (hoperand : Follows [] (operand.run inner) operand') (hclosed : operator.Closed) :
    Follows [] ((Rule.chain operand operator what).run inner) (chain operand' operator what) := by
  have hlink : Follows [] ((Rule.chainLink operand operator what).run inner)
      (chainLink operand' operator what) :=
    .opened hclosed rfl rfl fun op =>
      .bind hoperand.commit fun _ _ hsame => .pure (.some ⟨rfl, hsame⟩) rfl
  exact .bind hoperand fun _ _ hfirst => .bind hlink.repeated fun _ _ hrest =>
    follows_nestRight hfirst hrest

end

/-! ### Phrases -/

/-- How phrases inside a phrase are read, with ids and without. -/
structure Inner.Follows (inner : Rule.Inner) (inner' : Inner) : Prop where
  expression : Abacus.Follows [] (inner .expression) (innerExpression inner')
  statement : Abacus.Follows [] (inner .statement) (innerStatement inner')

section
variable {inner : Rule.Inner} {inner' : Inner} (hinner : Inner.Follows inner inner')
include hinner

theorem follows_innerExpression :
    Follows [] (Rule.innerExpression.run inner) (innerExpression inner') :=
  hinner.expression

theorem follows_arguments : Follows [] (Rule.arguments.run inner) (arguments inner') := by
  have hnext : Follows [] (Rule.nextArgument.run inner) (nextArgument inner') :=
    .opened (closed_symbol _) rfl rfl fun _ => .present (follows_innerExpression hinner).commit
  exact .bind (follows_innerExpression hinner) fun _ _ hfirst => hnext.more hfirst

theorem follows_call : Follows [] (Rule.call.run inner) (call inner') := by
  refine .ofRule (closed_name.skip (closed_symbol _)) fun f => ?_
  refine .bind (follows_arguments hinner).optional fun args args' hargs => ?_
  refine .ofRule (closed_symbol _) fun _ => .fresh fun id => ?_
  cases hargs with
  | none => exact .pure rfl rfl
  | some hargs =>
    exact .pure (congrArg (Expr.call unnumbered f) (Drawn.bareAll_of_same hargs))
      (congrArg (id :: ·) (Drawn.ids_exprs _).symm)

theorem follows_grouped : Follows [] (Rule.grouped.run inner) (grouped inner') :=
  .skip (.skipLeft (closed_symbol _) (follows_innerExpression hinner)) (closed_symbol _)

theorem follows_negated : Follows [] (Rule.negated.run inner) (negated inner') :=
  .bind (.skipLeft (closed_symbol _) (follows_innerExpression hinner)) fun _ _ hsame =>
    .fresh fun _ => .pure (congrArg (Expr.negate unnumbered) hsame) rfl

theorem follows_value : Follows [] (Rule.value.run inner) (value inner') :=
  .label <| (follows_grouped hinner).orElse <| (follows_negated hinner).orElse <|
    follows_juxtaposed.orElse <| (follows_call hinner).orElse <| follows_var.orElse follows_number

theorem follows_power : Follows [] (Rule.power.run inner) (power inner') :=
  follows_chain (follows_value hinner) (closed_operator _ _)

theorem follows_term : Follows [] (Rule.term.run inner) (term inner') :=
  follows_chain (follows_power hinner) Rule.closed_multiplicative

theorem follows_expression : Follows [] (Rule.expression.run inner) (expression inner') :=
  follows_chain (follows_term hinner) Rule.closed_additive

/-! ### Statements -/

theorem follows_assign : Follows [] (Rule.assign.run inner) (assign inner') := by
  refine .ofRule (closed_name.skip (closed_symbol _)) fun x => ?_
  exact .bind (follows_expression hinner) fun _ _ hsame => .fresh fun _ =>
    .pure (congrArg (Stmt.assign unnumbered x) hsame) rfl

omit hinner in
theorem follows_param : Follows [] (Rule.param.run inner) param :=
  .ofRule closed_name fun _ => .fresh fun _ => .pure rfl rfl

omit hinner in
theorem follows_params : Follows [] (Rule.params.run inner) params := by
  have hnext : Follows [] (Rule.nextParam.run inner) nextParam :=
    .opened (closed_symbol _) rfl rfl fun _ => .present follows_param
  exact .bind follows_param fun _ _ hfirst => hnext.more hfirst

omit hinner in
theorem follows_statementList {statement : Rule Stmt} {statement' : Drawing Stmt}
    (hstatement : Follows [] (statement.run inner) statement') :
    Follows [] ((Rule.statementList statement).run inner) (statementList statement') := by
  have hnext : Follows [] ((Rule.nextStatement statement).run inner) (nextStatement statement') :=
    .opened Rule.closed_newline rfl rfl fun _ => hstatement.optional
  refine .bind hstatement.optional fun first first' hfirst => ?_
  cases hfirst with
  | none => exact .pure .nil rfl
  | some hfirst => exact hnext.more hfirst

omit hinner in
theorem follows_block {statements : Rule (List Stmt)} {statements' : Drawing (List Stmt)}
    (h : Follows [] (statements.run inner) statements') :
    Follows (β := Block) [] (statements.run inner) (block statements') := by
  rw [← Rule.run_bind_pure]
  exact .bind h fun _ _ hsame => .fresh fun id =>
    .pure (Drawn.stmts_of_same hsame) (congrArg (id :: ·) (Drawn.ids_stmts _).symm)

theorem follows_bracedBody :
    Follows (β := Block) [] (Rule.bracedBody.run inner) (bracedBody inner') :=
  .skip (.skipLeft ((closed_symbol _).skipLeft Rule.closed_newline)
    (follows_block (follows_statementList hinner.statement))) (closed_symbol _)

theorem follows_inlineBody :
    Follows (β := Block) [] (Rule.inlineBody.run inner) (inlineBody inner') :=
  follows_block <| .bind hinner.statement.commit fun _ _ hsame =>
    .pure (.cons hsame .nil) (List.flatMap_singleton ids _)

omit hinner in
theorem follows_defineHead : Follows [] (Rule.defineHead.run inner) defineHead := by
  refine .ofRule (Rule.closed_spannedName.skip (closed_symbol _)) fun name => ?_
  refine .bind follows_params.optional fun ps ps' hparams => ?_
  refine .ofRule (closed_symbol _) fun _ => .ofRule (closed_symbol _) fun _ => ?_
  cases hparams with
  | none => exact .pure ⟨rfl, .nil⟩ rfl
  | some hparams => exact .pure ⟨rfl, hparams⟩ rfl

theorem follows_define : Follows [] (Rule.define.run inner) (define inner') := by
  refine .bind follows_defineHead fun head head' hhead => ?_
  obtain ⟨⟨f, span⟩, ps⟩ := head
  obtain ⟨_, ps'⟩ := head'
  obtain ⟨rfl, hparams⟩ := hhead
  refine .ofRule (Rule.closed_ownName f span) fun _ => ?_
  have hbody := (follows_bracedBody hinner).orElse (follows_inlineBody hinner)
  refine .bind hbody fun body body' hbody => ?_
  refine .fresh fun paramsId => .fresh fun id => .pure ?_ ?_
  · change Stmt.define _ _ (Grammar.paramList (ps'.map Param.name)) _ (Stmt.bareAll body'.stmts) = _
    rw [Drawn.names_of_same hparams, hbody]
    rfl
  · exact congrArg (id :: paramsId :: · ++ body'.nodeIds) (Drawn.ids_params ps').symm

theorem follows_expressionStatement :
    Follows [] (Rule.expressionStatement.run inner) (expressionStatement inner') :=
  .bind (follows_expression hinner) fun _ _ hsame => .pure (congrArg Stmt.expr hsame) rfl

theorem follows_statement : Follows [] (Rule.statement.run inner) (statement inner') :=
  (follows_define hinner).orElse <| (follows_assign hinner).orElse (follows_expressionStatement hinner)

theorem follows_program : Follows (β := Program) [] (Rule.stmts.run inner) (program inner') := by
  rw [← Rule.run_bind_pure]
  exact .bind (follows_block (follows_statementList (follows_statement hinner))) fun _ _ hsame =>
    .fresh fun _ => .pure hsame rfl

end

theorem follows_innerTo (depth : Nat) : Inner.Follows (Rule.innerTo depth) (innerTo depth) := by
  induction depth with
  | zero => exact ⟨fun _ _ => .error (Nat.le_refl _), fun _ _ => .error (Nat.le_refl _)⟩
  | succ depth ih => exact ⟨follows_expression ih, follows_statement ih⟩

end Drawing

/-! ## Programs -/

/-- Reading a token list with ids from `next` on makes the program that reading it without them does,
or fails as that does. Its ids are different ones from the supply. -/
theorem Program.ofTokensFrom_follows (next : NodeId) (tokens : List Token) :
    (∃ e after, ofTokens tokens = .error e ∧ ofTokensFrom next tokens = (.error e, after)) ∨
      ∃ p q after, ofTokens tokens = .ok p ∧ ofTokensFrom next tokens = (.ok q, after) ∧
        Stmt.bareAll q.stmts = Stmt.bareAll p.stmts ∧ Draws [] q.nodeIds next after := by
  have hmirrors := Drawing.follows_program (Drawing.follows_innerTo tokens.length) next tokens
  unfold ofTokens ofTokensFrom Rule.readAll Rule.read
  generalize Rule.stmts.run (Rule.innerTo tokens.length) tokens = x,
    Drawing.program (Drawing.innerTo tokens.length) next tokens = y at hmirrors
  cases hmirrors with
  | error hle => exact .inl ⟨_, _, rfl, rfl⟩
  | @ok stmts q rest after hsame hdraws =>
    cases rest with
    | nil =>
      refine .inr ⟨_, q, after, rfl, rfl, ?_, hdraws⟩
      rw [Program.bareAll_ofStmts]
      exact hsame
    | cons t rest => exact .inl ⟨_, _, rfl, rfl⟩

end Abacus
