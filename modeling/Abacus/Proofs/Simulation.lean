import Mathlib.Data.List.Forall2
import Mathlib.Data.Option.Basic
import Abacus.Proofs.Running

/-!
# Related code runs alike

A relation on code carries over to the values, frames and states of a run: `State.Lift R` says that two
states differ in their blocks at most, and there only by `R`. Operations keep it, since none of them
looks into a block (`State.Lift.operate`). So if all that related code does is to keep it
(`Code.Carries`), then runs of related code come to the same, however deeply their functions call each
other (`Code.runIn_lift`).

Errors are compared as they look through `view`, which may leave out what an error says about the code.
-/
namespace Abacus

/-! ## Related states -/

section
variable (R : Code → Code → Prop)

inductive Value.Lift : Value → Value → Prop
  | number (value : Float) : Value.Lift (.number value) (.number value)
  | name (name : String) : Value.Lift (.name name) (.name name)
  | block {body body' : Code} (h : R body body') : Value.Lift (.block body) (.block body')

abbrev Stack.Lift (s t : Stack) : Prop :=
  List.Forall₂ (Value.Lift R) s t

structure Closure.Lift (c d : Closure) : Prop where
  params : c.params = d.params
  body : R c.body d.body

structure Frame.Lift (f g : Frame) : Prop where
  locals : f.locals = g.locals
  functions : ∀ name, Option.Rel (Closure.Lift R) (f.functions.get? name) (g.functions.get? name)

structure State.Lift (s t : State) : Prop where
  stack : Stack.Lift R s.stack t.stack
  frame : s.frame.Lift R t.frame

end

section
variable {R : Code → Code → Prop}

namespace Frame.Lift

theorem ofLocals (locals : Locals) : (Frame.ofLocals locals).Lift R (.ofLocals locals) :=
  ⟨rfl, fun _ => .none⟩

theorem ofCall (params : List String) (args : List Float) :
    (Frame.ofCall params args).Lift R (.ofCall params args) :=
  .ofLocals _

theorem setLocal {f g : Frame} (h : f.Lift R g) (name : String) (value : Float) :
    (f.setLocal name value).Lift R (g.setLocal name value) := by
  refine ⟨?_, h.functions⟩
  simp only [Frame.setLocal, h.locals]

theorem define {f g : Frame} (h : f.Lift R g) (name : String) {c d : Closure} (hcd : c.Lift R d) :
    (f.define name c).Lift R (g.define name d) :=
  ⟨h.locals, Table.rel_insert h.functions name (.some hcd)⟩

end Frame.Lift

/-! ## Taking values off related stacks -/

theorem Value.Lift.kind_eq {v w : Value} (h : v.Lift R w) : v.kind = w.kind := by
  cases h <;> rfl

namespace Operand

/-- Related values hold related things. -/
def Lifts {α : Type} (R : Code → Code → Prop) (operand : Operand α) (S : α → α → Prop) : Prop :=
  ∀ {v w : Value}, v.Lift R w → Option.Rel S (operand.held? v) (operand.held? w)

theorem lifts_number : number.Lifts R Eq := by
  intro v w h
  cases h with
  | number value => exact .some rfl
  | _ => exact .none

theorem lifts_name : name.Lifts R Eq := by
  intro v w h
  cases h with
  | name x => exact .some rfl
  | _ => exact .none

theorem lifts_block : block.Lifts R R := by
  intro v w h
  cases h with
  | block hbody => exact .some hbody
  | _ => exact .none

end Operand

namespace Stack.Lift

open Traced (Agree)

/-- Related values taken off, related stacks left. -/
def Popped (R : Code → Code → Prop) {α β : Type} (S : α → β → Prop) (p : α × Stack) (q : β × Stack) :
    Prop :=
  S p.1 q.1 ∧ Stack.Lift R p.2 q.2

variable {α : Type} {operand : Operand α}

theorem pop {S : α → α → Prop} (hoperand : operand.Lifts R S) (op : Op) {s t : Stack}
    (h : Stack.Lift R s t) : Agree (Popped R S) (s.pop operand op) (t.pop operand op) := by
  cases h with
  | nil => exact rfl
  | @cons v w s t hv hs =>
    have hheld := hoperand hv
    simp only [Stack.pop, Stack.mismatch, hv.kind_eq]
    generalize operand.held? v = a, operand.held? w = b at hheld
    cases hheld with
    | some hab => exact ⟨hab, hs⟩
    | none => exact rfl

theorem popMany (hoperand : operand.Lifts R Eq) (op : Op) (n : Nat) {s t : Stack}
    (h : Stack.Lift R s t) :
    Agree (Popped R Eq) (s.popMany operand op n) (t.popMany operand op n) := by
  induction n generalizing s t with
  | zero => exact ⟨rfl, h⟩
  | succ n ih =>
    refine (h.pop hoperand op).bind ?_
    rintro ⟨a, s⟩ ⟨_, t⟩ ⟨rfl, hst⟩
    refine (ih hst).bind ?_
    rintro ⟨as, s⟩ ⟨_, t⟩ ⟨rfl, hst⟩
    exact ⟨rfl, hst⟩

variable {s t : Stack} (op : Op) (h : Stack.Lift R s t)
include h

theorem popCount : Agree (Popped R Eq) (s.popCount op) (t.popCount op) := by
  refine (h.pop Operand.lifts_number op).bind ?_
  rintro ⟨value, s⟩ ⟨_, t⟩ ⟨rfl, hst⟩
  cases hn : Decimal.whole? value with
  | none => simp only [hn]; exact rfl
  | some n => simp only [hn]; exact ⟨rfl, hst⟩

theorem result : Agree Eq s.result t.result := by
  cases h with
  | nil => exact rfl
  | cons hv _ => cases hv <;> exact rfl

end Stack.Lift

/-! ## Running related code -/

open Traced (SimBy)

variable {view : RuntimeError → RuntimeError}

/-- Calls of built-in functions do what these do, and calls in related frames look the same. -/
structure State.Caller.Respects (view : RuntimeError → RuntimeError) (R : Code → Code → Prop)
    (call : State.Caller) : Prop where
  builtin : ∀ {name : String} {b : Builtin}, Builtin.ofName? name = some b → ∀ frame args,
    call frame name args = b.call args
  lift : ∀ {f g : Frame}, f.Lift R g → ∀ name args,
    (call f name args).mapError view = (call g name args).mapError view

/-- What related code does leaves related states behind. -/
def Code.Carries (view : RuntimeError → RuntimeError) (R : Code → Code → Prop) : Prop :=
  ∀ {call : State.Caller}, call.Respects view R → ∀ {a b : Code}, R a b → ∀ {s t : State},
    s.Lift R t → SimBy view (State.Lift R) (State.steps call a s) (State.steps call b t)

section
variable {call : State.Caller} (hcall : call.Respects view R)
include hcall

/-- Operations do not look into blocks. -/
theorem State.Lift.operate (op : Op) {st st' : State} (h : st.Lift R st') :
    SimBy view (State.Lift R) (st.operate call op) (st'.operate call op) := by
  obtain ⟨hstack, hframe⟩ := h
  cases op with
  | arithmetic operator =>
    refine .bind (.ofExcept (hstack.pop Operand.lifts_number _)) ?_
    rintro ⟨x, s⟩ ⟨_, t⟩ ⟨rfl, hst⟩
    refine .bind (.ofExcept (hst.pop Operand.lifts_number _)) ?_
    rintro ⟨y, s⟩ ⟨_, t⟩ ⟨rfl, hst⟩
    refine .bind (.of_eq rfl) ?_
    rintro value _ rfl
    exact .pure ⟨.cons (.number value) hst, hframe⟩
  | negate =>
    refine .bind (.ofExcept (hstack.pop Operand.lifts_number _)) ?_
    rintro ⟨x, s⟩ ⟨_, t⟩ ⟨rfl, hst⟩
    exact .pure ⟨.cons (.number (-x)) hst, hframe⟩
  | getLocal =>
    refine .bind (.ofExcept (hstack.pop Operand.lifts_name _)) ?_
    rintro ⟨name, s⟩ ⟨_, t⟩ ⟨rfl, hst⟩
    simp only [hframe.locals]
    cases st'.frame.locals.get? name with
    | some value => exact .pure ⟨.cons (.number value) hst, hframe⟩
    | none => exact .fail _
  | setLocal =>
    refine .bind (.ofExcept (hstack.pop Operand.lifts_name _)) ?_
    rintro ⟨name, s⟩ ⟨_, t⟩ ⟨rfl, hst⟩
    refine .bind (.ofExcept (hst.pop Operand.lifts_number _)) ?_
    rintro ⟨value, s⟩ ⟨_, t⟩ ⟨rfl, hst⟩
    exact .pure ⟨.cons (.number value) hst, hframe.setLocal name value⟩
  | call =>
    refine .bind (.ofExcept (hstack.pop Operand.lifts_name _)) ?_
    rintro ⟨name, s⟩ ⟨_, t⟩ ⟨rfl, hst⟩
    refine .bind (.ofExcept (hst.popCount _)) ?_
    rintro ⟨count, s⟩ ⟨_, t⟩ ⟨rfl, hst⟩
    refine .bind (.ofExcept (hst.popMany Operand.lifts_number _ count)) ?_
    rintro ⟨args, s⟩ ⟨_, t⟩ ⟨rfl, hst⟩
    refine .bind (.of_eq (hcall.lift hframe name args)) ?_
    rintro value _ rfl
    exact .pure ⟨.cons (.number value) hst, hframe⟩
  | define =>
    refine .bind (.ofExcept (hstack.pop Operand.lifts_name _)) ?_
    rintro ⟨name, s⟩ ⟨_, t⟩ ⟨rfl, hst⟩
    refine .bind (.ofExcept (hst.popCount _)) ?_
    rintro ⟨count, s⟩ ⟨_, t⟩ ⟨rfl, hst⟩
    refine .bind (.ofExcept (hst.popMany Operand.lifts_name _ count)) ?_
    rintro ⟨params, s⟩ ⟨_, t⟩ ⟨rfl, hst⟩
    refine .bind (.ofExcept (hst.pop Operand.lifts_block _)) ?_
    rintro ⟨body, s⟩ ⟨body', t⟩ ⟨hbody, hst⟩
    refine .bind (.emit _) fun _ _ _ => .pure ⟨hst, hframe.define name ⟨rfl, hbody⟩⟩

/-- Carrying out the same instruction. -/
theorem State.Lift.step (hrefl : ∀ code, R code code) (i : Instr) {s t : State} (h : s.Lift R t) :
    SimBy view (State.Lift R) (s.step call i) (t.step call i) := by
  cases i with
  | number value => exact .pure ⟨.cons (.number value) h.stack, h.frame⟩
  | name name => exact .pure ⟨.cons (.name name) h.stack, h.frame⟩
  | block code => exact .pure ⟨.cons (.block (hrefl code)) h.stack, h.frame⟩
  | op op => exact h.operate hcall op

end

/-- A call does the same in related frames if entering a function does. -/
theorem Frame.Lift.call_eq {limit : Option Nat} {depth : Nat} {enter : Enter}
    (henter : ∀ {a b : Code} {f g : Frame}, R a b → f.Lift R g →
      (enter a f).mapError view = (enter b g).mapError view)
    {f g : Frame} (h : f.Lift R g) (name : String) (args : List Float) :
    (f.call limit depth enter name args).mapError view =
      (g.call limit depth enter name args).mapError view := by
  unfold Frame.call
  cases Builtin.ofName? name with
  | some b => rfl
  | none =>
    have hrel := h.functions name
    generalize f.functions.get? name = c, g.functions.get? name = d at hrel ⊢
    cases hrel with
    | none => rfl
    | some hcd =>
      have hbody := fun params => henter hcd.body (.ofCall params args)
      simp only [Closure.call, hcd.params]
      split
      · rfl
      · split
        · rfl
        · simp only [Traced.mapError_bind, hbody]

theorem Frame.respects_call (limit : Option Nat) (depth : Nat) {enter : Enter}
    (henter : ∀ {a b : Code} {f g : Frame}, R a b → f.Lift R g →
      (enter a f).mapError view = (enter b g).mapError view) :
    State.Caller.Respects view R (Frame.call limit depth enter) := by
  refine ⟨fun hb frame args => ?_, fun h => h.call_eq henter⟩
  simp only [Frame.call, hb]

/-- Related code runs alike. -/
theorem Code.runIn_lift (hcarries : Code.Carries view R) (limit : Option Nat) (nesting depth : Nat)
    {a b : Code} (hab : R a b) {f g : Frame} (hfg : f.Lift R g) :
    (Code.runIn limit nesting depth a f).mapError view =
      (Code.runIn limit nesting depth b g).mapError view := by
  -- at nesting zero there is nothing to enter; above it, what is entered is code at a lower nesting
  have henter : ∀ {a b : Code} {f g : Frame}, R a b → f.Lift R g →
      (Code.entering limit nesting depth a f).mapError view =
        (Code.entering limit nesting depth b g).mapError view := by
    cases nesting with
    | zero => exact fun _ _ => rfl
    | succ nesting => exact fun hab hfg => Code.runIn_lift hcarries limit nesting (depth + 1) hab hfg
  rw [Code.runIn_eq]
  have hsteps := hcarries (Frame.respects_call limit depth henter) hab (s := ⟨[], f⟩) (t := ⟨[], g⟩)
    ⟨.nil, hfg⟩
  exact (Traced.SimBy.bind hsteps fun _ _ h => .ofExcept h.stack.result).eq

end
end Abacus
