import Abacus.Proofs.Compiled
import Abacus.Proofs.Names.Basic
import Abacus.Proofs.Running

/-!
# Names that are missing when a program runs

A frame has the variables that the tree says are bound (`Frame.Tracks`): it starts with the parameters
and gains what is assigned. So a run can only miss a variable that is unbound in the tree, in the body
that runs or in one that it calls (`Code.runIn_ensures`). And at the top level every name is come upon
if a run gets to its end, so a run that comes to a value has left no name dangling.

This holds of any code that the compiler makes, also if its counts are not read back: what a count
governs is numbers on the stack, and names are taken off the stack right after they are put there.
-/
namespace Abacus

/-! ## What a result ensures -/

namespace Traced

variable {ε α β : Type}

/-- A value of which the one holds, or an error of which the other holds. -/
def Ensures (Q : α → Prop) (E : ε → Prop) (x : Traced ε α) : Prop :=
  match x.result with
  | .ok a => Q a
  | .error e => E e

namespace Ensures

variable {Q Q' : α → Prop} {R : β → Prop} {E : ε → Prop}

theorem emit (event : Event) : Ensures (fun _ => True) E (Traced.emit event : Traced ε Unit) :=
  trivial

theorem bind {x : Traced ε α} {f : α → Traced ε β} (h : Ensures Q E x)
    (hf : ∀ a, Q a → Ensures R E (f a)) : Ensures R E (x >>= f) := by
  unfold Ensures at h ⊢
  rw [result_bind]
  cases hx : x.result with
  | error e => rw [hx] at h; exact h
  | ok a => rw [hx] at h; exact hf a h

theorem mono {x : Traced ε α} (h : Ensures Q E x) (hQ : ∀ a, Q a → Q' a) : Ensures Q' E x := by
  unfold Ensures at h ⊢
  cases hx : x.result with
  | error e => rw [hx] at h; exact h
  | ok a => rw [hx] at h; exact hQ a h

theorem of_ok {x : Traced ε α} (h : Ensures Q E x) {a : α} (ha : x.result = .ok a) : Q a := by
  unfold Ensures at h
  rwa [ha] at h

theorem of_error {x : Traced ε α} (h : Ensures Q E x) {e : ε} (he : x.result = .error e) : E e := by
  unfold Ensures at h
  rwa [he] at h

end Ensures
end Traced

/-! ## Missing variables -/

/-- The error is no missing variable, or one of these. -/
def Excused (P : String → Prop) (e : RuntimeError) : Prop :=
  ∀ x, e = .unknownVariable x → P x

/-! ### Taking values off a stack -/

namespace Stack

/-- Nothing but code that is not well formed is to blame for an error. -/
def BlamesCode {α : Type} (x : Except RuntimeError α) : Prop :=
  ∀ e, x = .error e → ∃ detail, e = .malformed detail

theorem BlamesCode.bind {α β : Type} {x : Except RuntimeError α} {f : α → Except RuntimeError β}
    (h : BlamesCode x) (hf : ∀ a, BlamesCode (f a)) : BlamesCode (x >>= f) := by
  intro e he
  cases x with
  | error e' => cases he; exact h e rfl
  | ok a => exact hf a e he

variable (op : Op) (s : Stack)

theorem blamesCode_pop {α : Type} (operand : Operand α) : BlamesCode (s.pop operand op) := by
  intro e he
  cases s with
  | nil => cases he; exact ⟨_, rfl⟩
  | cons v rest =>
    simp only [pop] at he
    split at he <;> cases he
    exact ⟨_, rfl⟩

theorem blamesCode_popCount : BlamesCode (s.popCount op) := by
  refine (blamesCode_pop op s .number).bind fun r => ?_
  intro e he
  dsimp only at he
  split at he <;> cases he
  exact ⟨_, rfl⟩

theorem blamesCode_popMany {α : Type} (operand : Operand α) (n : Nat) :
    BlamesCode (s.popMany operand op n) := by
  induction n generalizing s with
  | zero => exact nofun
  | succ n ih =>
    refine (blamesCode_pop op s operand).bind fun r => ?_
    exact (ih r.2).bind fun _ => nofun

theorem blamesCode_result : BlamesCode s.result := by
  intro e he
  cases s with
  | nil => cases he
  | cons v rest => cases v <;> cases he <;> exact ⟨_, rfl⟩

end Stack

section
variable {P : String → Prop}

open Traced (Ensures)

/-- A value taken off the stack, or an error that misses no variable. -/
theorem Stack.BlamesCode.ensures {α : Type} {x : Except RuntimeError α} (h : BlamesCode x) :
    (Traced.ofExcept x).Ensures (fun a => x = .ok a) (Excused P) := by
  cases x with
  | ok a => exact rfl
  | error e =>
    obtain ⟨detail, rfl⟩ := h e rfl
    exact nofun

/-! ### Operations and calls -/

theorem Builtin.ensures_call (b : Builtin) (args : List Float) :
    (b.call args).Ensures (fun _ => True) (Excused P) := by
  unfold Builtin.call
  split
  case h_4 =>
    split
    · exact nofun
    · trivial
  all_goals first | trivial | exact nofun

/-- The functions of a frame have code of a tree, and only these variables are unbound in it. -/
def Frame.Misses (P : String → Prop) (frame : Frame) : Prop :=
  ∀ name closure, frame.functions.get? name = some closure →
    ∃ body, closure.body = Stmt.compileAll body ∧
      ∀ use ∈ Stmt.unboundAll closure.params body, P use.2

theorem Frame.misses_ofCall (params : List String) (args : List Float) :
    (Frame.ofCall params args).Misses P := by
  intro name closure h
  cases h

/-- Calls miss no other variables than these, and a call that returns is one of a function that is
there. -/
def State.Caller.Misses (P : String → Prop) (call : State.Caller) : Prop :=
  ∀ frame : Frame, frame.Misses P → ∀ name args,
    (call frame name args).Ensures
      (fun _ => Builtin.ofName? name = none → frame.functions.get? name ≠ none) (Excused P)

namespace State

variable (call : Caller) (s : State)

theorem steps_number (v : Float) (rest : Code) :
    steps call (.number v :: rest) s = steps call rest (s.push (.number v)) :=
  rfl

theorem steps_name (x : String) (rest : Code) :
    steps call (.name x :: rest) s = steps call rest (s.push (.name x)) :=
  rfl

theorem steps_block (code rest : Code) :
    steps call (.block code :: rest) s = steps call rest (s.push (.block code)) :=
  rfl

theorem ensures_arithmetic (operator : Operator) :
    (s.operate call (.arithmetic operator)).Ensures (fun s' => s'.frame = s.frame) (Excused P) := by
  refine .bind (s.stack.blamesCode_pop _ _).ensures fun r _ => ?_
  refine .bind (r.2.blamesCode_pop _ _).ensures fun r' _ => ?_
  exact .bind (Builtin.ensures_call _ _) fun _ _ => rfl

theorem ensures_negate :
    (s.operate call .negate).Ensures (fun s' => s'.frame = s.frame) (Excused P) :=
  .bind (s.stack.blamesCode_pop _ _).ensures fun _ _ => rfl

theorem ensures_getLocal {x : String} (hx : s.frame.locals.get? x = none → P x) :
    ((s.push (.name x)).operate call .getLocal).Ensures
      (fun s' => s'.frame = s.frame ∧ s.frame.locals.get? x ≠ none) (Excused P) := by
  simp only [operate, push, Stack.pop_name, Traced.ok_bind]
  cases hget : s.frame.locals.get? x with
  | some v => exact ⟨rfl, Option.some_ne_none v⟩
  | none =>
    intro y hy
    cases hy
    exact hx hget

theorem ensures_setLocal (x : String) :
    ((s.push (.name x)).operate call .setLocal).Ensures
      (fun s' => ∃ v, s'.frame = s.frame.setLocal x v) (Excused P) := by
  change (Traced.ofExcept (s.stack.pop .number .setLocal) >>= fun r =>
    pure ({ stack := .number r.1 :: r.2, frame := s.frame.setLocal x r.1 } : State)).Ensures _ _
  exact .bind (s.stack.blamesCode_pop _ _).ensures fun r _ => ⟨r.1, rfl⟩

variable {call} in
theorem ensures_call (hcall : call.Misses P) (hs : s.frame.Misses P) (f : String) :
    ((s.push (.name f)).operate call .call).Ensures
      (fun s' => s'.frame = s.frame ∧ (Builtin.ofName? f = none → s.frame.functions.get? f ≠ none))
      (Excused P) := by
  change (Traced.ofExcept (s.stack.popCount .call) >>= fun r =>
    Traced.ofExcept (r.2.popMany .number .call r.1) >>= fun r' =>
      call s.frame f r'.1 >>= fun value =>
        pure { s with stack := .number value :: r'.2 }).Ensures _ _
  refine .bind (s.stack.blamesCode_popCount _).ensures fun r _ => ?_
  refine .bind (r.2.blamesCode_popMany _ _ _).ensures fun r' _ => ?_
  exact .bind (hcall s.frame hs f r'.1) fun _ hf => ⟨rfl, hf⟩

/-- Of a stack with names on top of a block there is only one way to take these. -/
theorem names_block_inj {names params : List String} {b body : Code} {stack rest : Stack}
    (h : names.map Value.name ++ .block b :: stack = params.map Value.name ++ .block body :: rest) :
    names = params ∧ b = body := by
  induction names generalizing params with
  | nil =>
    cases params with
    | nil => cases h; exact ⟨rfl, rfl⟩
    | cons x params => cases h
  | cons y names ih =>
    cases params with
    | nil => cases h
    | cons x params =>
      simp only [List.map_cons, List.cons_append, List.cons.injEq, Value.name.injEq] at h
      obtain ⟨rfl, h⟩ := h
      obtain ⟨rfl, rfl⟩ := ih h
      exact ⟨rfl, rfl⟩

theorem ensures_define (f : String) (names : List String) (count : Float) (b : Code) :
    (({ s with stack := .name f :: .number count :: (names.map Value.name ++ .block b :: s.stack) }
      : State).operate call .define).Ensures
      (fun s' => s'.frame = s.frame.define f { params := names, body := b }) (Excused P) := by
  refine .bind (Stack.blamesCode_pop _ _ _).ensures fun r hr => ?_
  cases hr
  refine .bind (Stack.blamesCode_popCount _ _).ensures fun r hr => ?_
  obtain ⟨c, hc⟩ := Stack.of_popCount hr
  refine .bind (Stack.blamesCode_popMany _ _ _ _).ensures fun r' hr' => ?_
  refine .bind (Stack.blamesCode_pop _ _ _).ensures fun r'' hr'' => ?_
  refine .bind (.emit _) fun _ _ => ?_
  rw [Stack.of_popMany hr', Stack.of_pop hr''] at hc
  obtain ⟨rfl, rfl⟩ := names_block_inj (List.cons.inj hc).2
  exact rfl

end State

/-! ### Frames and their variables -/

/-- A frame with these variables and with some of these functions. -/
structure Frame.Tracks (names functions : List String) (frame : Frame) : Prop where
  locals : ∀ x, frame.locals.get? x ≠ none ↔ x ∈ names
  functions : ∀ f, frame.functions.get? f ≠ none → f ∈ functions

theorem Table.get?_foldl_insert_ne_none {α : Type} (entries : List (String × α)) (t : Table String α)
    (key : String) :
    (entries.foldl (fun t entry => t.insert entry.1 entry.2) t).get? key ≠ none ↔
      t.get? key ≠ none ∨ key ∈ entries.map Prod.fst := by
  induction entries generalizing t with
  | nil => simp
  | cons entry rest ih =>
    rw [List.foldl_cons, ih, Table.get?_insert, List.map_cons, List.mem_cons]
    by_cases hkey : entry.1 = key
    · simp [hkey]
    · rw [if_neg hkey]
      simp [Ne.symm hkey]

namespace Frame

variable {names functions : List String} {frame : Frame}

theorem tracks_empty : (Frame.ofLocals {}).Tracks [] [] :=
  ⟨fun _ => ⟨fun h => absurd rfl h, nofun⟩, fun _ h => absurd rfl h⟩

/-- The frame of a call has the parameters as its variables. -/
theorem tracks_ofCall {params : List String} {args : List Float} (h : params.length = args.length) :
    (Frame.ofCall params args).Tracks params [] := by
  refine ⟨fun x => ?_, fun _ h => absurd rfl h⟩
  refine (Table.get?_foldl_insert_ne_none (params.zip args) .empty x).trans ?_
  rw [List.map_fst_zip (Nat.le_of_eq h)]
  simp

theorem Tracks.setLocal (h : frame.Tracks names functions) (x : String) (v : Float) :
    (frame.setLocal x v).Tracks (x :: names) functions := by
  refine ⟨fun y => ?_, h.functions⟩
  rw [Frame.setLocal, Table.get?_insert, List.mem_cons, ← h.locals y]
  by_cases hname : x = y
  · simp [hname]
  · rw [if_neg hname]
    simp [Ne.symm hname]

theorem Tracks.define (h : frame.Tracks names functions) (f : String) (closure : Closure) :
    (frame.define f closure).Tracks names (f :: functions) := by
  refine ⟨h.locals, fun g hg => ?_⟩
  rw [Frame.define, Table.get?_insert] at hg
  by_cases hname : f = g
  · exact List.mem_cons.mpr (.inl hname.symm)
  · rw [if_neg hname] at hg
    exact List.mem_cons_of_mem _ (h.functions g hg)

theorem Misses.define (h : frame.Misses P) (f : String) {params : List String} {body : List Stmt}
    (hbody : ∀ use ∈ Stmt.unboundAll params body, P use.2) :
    (frame.define f { params, body := Stmt.compileAll body }).Misses P :=
  Table.of_get?_insert h ⟨body, rfl, hbody⟩

end Frame

/-! ### Expressions -/

section
variable {call : State.Caller} {names functions : List String}

mutual

/-- An expression that comes to a value has found all its variables and functions. -/
theorem Expr.steps_ensures (hcall : call.Misses P) : ∀ (e : Expr) {s : State}, s.frame.Misses P →
    s.frame.Tracks names functions → (∀ use ∈ e.variables, use.2 ∉ names → P use.2) →
      (State.steps call e.compile s).Ensures
        (fun s' => s'.frame = s.frame ∧ (∀ use ∈ e.variables, use.2 ∈ names) ∧
          ∀ use ∈ e.calls, use.2 ∈ functions) (Excused P)
  | .number _ _ _, s, _, _, _ => ⟨rfl, nofun, nofun⟩
  | .var id x, s, hs, htracks, hmiss => by
    have hx : s.frame.locals.get? x = none → P x := fun hnone =>
      hmiss (id, x) (List.mem_singleton.mpr rfl) fun hmem => (htracks.locals x).mpr hmem hnone
    rw [Expr.compile, State.steps_name, State.steps_singleton]
    refine (State.ensures_getLocal call s hx).mono fun s' ⟨hframe, hfound⟩ => ⟨hframe, ?_, nofun⟩
    intro use huse
    obtain rfl := List.mem_singleton.mp huse
    exact (htracks.locals x).mp hfound
  | .binary _ op left right, s, hs, htracks, hmiss => by
    rw [Expr.compile, State.steps_append, State.steps_append, bind_assoc]
    refine .bind (Expr.steps_ensures hcall right hs htracks fun use huse =>
      hmiss use (List.mem_append_right _ huse)) fun s₁ ⟨hframe₁, hvars₁, hcalls₁⟩ => ?_
    rw [← hframe₁] at hs htracks
    refine .bind (Expr.steps_ensures hcall left hs htracks fun use huse =>
      hmiss use (List.mem_append_left _ huse)) fun s₂ ⟨hframe₂, hvars₂, hcalls₂⟩ => ?_
    rw [State.steps_singleton]
    refine (State.ensures_arithmetic call s₂ op).mono fun s₃ hframe₃ => ⟨?_, ?_, ?_⟩
    · rw [hframe₃, hframe₂, hframe₁]
    · exact fun use huse => (List.mem_append.mp huse).elim (hvars₂ use) (hvars₁ use)
    · exact fun use huse => (List.mem_append.mp huse).elim (hcalls₂ use) (hcalls₁ use)
  | .negate _ operand, s, hs, htracks, hmiss => by
    rw [Expr.compile, State.steps_append]
    refine .bind (Expr.steps_ensures hcall operand hs htracks hmiss)
      fun s₁ ⟨hframe₁, hvars, hcalls⟩ => ?_
    rw [State.steps_singleton]
    exact (State.ensures_negate call s₁).mono fun s₂ hframe₂ => ⟨hframe₂.trans hframe₁, hvars, hcalls⟩
  | .call id f args, s, hs, htracks, hmiss => by
    rw [Expr.compile, State.steps_append]
    refine .bind (Expr.stepsArgs_ensures hcall args hs htracks hmiss)
      fun s₁ ⟨hframe₁, hvars, hcalls⟩ => ?_
    rw [← hframe₁] at hs htracks
    rw [Instr.count, State.steps_number, State.steps_name, State.steps_singleton]
    refine ((s₁.push (.number _)).ensures_call hcall hs f).mono fun s₂ ⟨hframe₂, hf⟩ =>
      ⟨hframe₂.trans hframe₁, hvars, ?_⟩
    · intro use huse
      rw [Expr.calls] at huse
      by_cases hbuiltin : Builtin.ofName? f = none
      · rw [if_pos hbuiltin] at huse
        rcases List.mem_cons.mp huse with rfl | hmem
        · exact htracks.functions f (hf hbuiltin)
        · exact hcalls use hmem
      · rw [if_neg hbuiltin] at huse
        exact hcalls use huse

theorem Expr.stepsArgs_ensures (hcall : call.Misses P) : ∀ (es : List Expr) {s : State},
    s.frame.Misses P → s.frame.Tracks names functions →
      (∀ use ∈ Expr.variablesAll es, use.2 ∉ names → P use.2) →
        (State.steps call (Expr.compileArgs es) s).Ensures
          (fun s' => s'.frame = s.frame ∧ (∀ use ∈ Expr.variablesAll es, use.2 ∈ names) ∧
            ∀ use ∈ Expr.callsAll es, use.2 ∈ functions) (Excused P)
  | [], s, _, _, _ => ⟨rfl, nofun, nofun⟩
  | e :: rest, s, hs, htracks, hmiss => by
    rw [Expr.compileArgs, State.steps_append]
    refine .bind (Expr.stepsArgs_ensures hcall rest hs htracks fun use huse =>
      hmiss use (List.mem_append_right _ huse)) fun s₁ ⟨hframe₁, hvars₁, hcalls₁⟩ => ?_
    rw [← hframe₁] at hs htracks
    refine (Expr.steps_ensures hcall e hs htracks fun use huse =>
      hmiss use (List.mem_append_left _ huse)).mono fun s₂ ⟨hframe₂, hvars₂, hcalls₂⟩ => ?_
    refine ⟨hframe₂.trans hframe₁, ?_, ?_⟩
    · exact fun use huse => (List.mem_append.mp huse).elim (hvars₂ use) (hvars₁ use)
    · exact fun use huse => (List.mem_append.mp huse).elim (hcalls₂ use) (hcalls₁ use)

end

/-! ### Statements -/

/-- What an expression needs is what it lists as unbound. -/
theorem Expr.steps_ensures_dangling (hcall : call.Misses P) (e : Expr) {s : State}
    (hs : s.frame.Misses P) (htracks : s.frame.Tracks names functions)
    (hmiss : ∀ use ∈ e.unbound names, P use.2) :
    (State.steps call e.compile s).Ensures
      (fun s' => s'.frame = s.frame ∧ e.dangling names functions = []) (Excused P) := by
  have hvars : ∀ use ∈ e.variables, use.2 ∉ names → P use.2 := fun use huse hnot =>
    hmiss use (Expr.mem_unbound.mpr ⟨huse, hnot⟩)
  refine (Expr.steps_ensures hcall e hs htracks hvars).mono fun s' ⟨hframe, hv, hc⟩ => ?_
  exact ⟨hframe, Expr.dangling_eq_nil hv hc⟩

theorem Stmt.steps_ensures (hcall : call.Misses P) (stmt : Stmt) {s : State}
    (hs : s.frame.Misses P) (htracks : s.frame.Tracks names functions)
    (hmiss : ∀ use ∈ stmt.unbound names, P use.2) :
    (State.steps call stmt.compile s).Ensures
      (fun s' => s'.frame.Misses P ∧ s'.frame.Tracks (stmt.binds names) (stmt.defines functions) ∧
        stmt.dangling names functions = []) (Excused P) := by
  cases stmt with
  | define id f params bodyId body =>
    rw [Stmt.compile, State.steps_block, State.push, State.steps_append, State.steps_names,
      List.reverse_reverse, pure_bind, Instr.count, State.steps_number, State.steps_name,
      State.steps_singleton]
    refine (s.ensures_define call f params.names _ (Stmt.compileAll body)).mono fun s' hs' => ?_
    rw [hs']
    exact ⟨hs.define f hmiss, htracks.define f _, rfl⟩
  | assign id x value =>
    rw [Stmt.compile, State.steps_append]
    refine .bind (value.steps_ensures_dangling hcall hs htracks hmiss)
      fun s₁ ⟨hframe₁, hdangling⟩ => ?_
    rw [← hframe₁] at hs htracks
    rw [State.steps_name, State.steps_singleton]
    refine (State.ensures_setLocal call s₁ x).mono fun s₂ ⟨v, hs₂⟩ => ?_
    rw [hs₂]
    exact ⟨hs, htracks.setLocal x v, hdangling⟩
  | expr e =>
    refine (e.steps_ensures_dangling hcall hs htracks hmiss).mono fun s' ⟨hframe, hdangling⟩ => ?_
    rw [← hframe] at hs htracks
    exact ⟨hs, htracks, hdangling⟩

end

/-- A list of statements that is gone through to its end leaves nothing dangling. -/
theorem Stmt.stepsAll_ensures {call : State.Caller} (hcall : call.Misses P) :
    ∀ (ss : List Stmt) {names functions : List String} {s : State}, s.frame.Misses P →
      s.frame.Tracks names functions → (∀ use ∈ Stmt.unboundAll names ss, P use.2) →
        (State.steps call (Stmt.compileAll ss) s).Ensures
          (fun _ => Stmt.danglingAll names functions ss = []) (Excused P)
  | [], _, _, _, _, _, _ => rfl
  | stmt :: rest, names, functions, s, hs, htracks, hmiss => by
    rw [Stmt.compileAll, State.steps_append]
    refine .bind (stmt.steps_ensures hcall hs htracks fun use huse =>
      hmiss use (List.mem_append_left _ huse)) fun s₁ ⟨hs₁, htracks₁, hdangling⟩ => ?_
    refine (Stmt.stepsAll_ensures hcall rest hs₁ htracks₁ fun use huse =>
      hmiss use (List.mem_append_right _ huse)).mono fun _ hrest => ?_
    rw [Stmt.danglingAll, hdangling, hrest]
    rfl

/-! ### Whole runs -/

/-- How functions are entered misses no other variables than these. -/
def Enter.Misses (P : String → Prop) (enter : Enter) : Prop :=
  ∀ (params : List String) (args : List Float) (body : List Stmt), params.length = args.length →
    (∀ use ∈ Stmt.unboundAll params body, P use.2) →
      (enter (Stmt.compileAll body) (.ofCall params args)).Ensures (fun _ => True) (Excused P)

theorem Enter.Misses.call {enter : Enter} (henter : enter.Misses P) (limit : Option Nat)
    (depth : Nat) : State.Caller.Misses P (Frame.call limit depth enter) := by
  intro frame hframe f args
  unfold Frame.call
  cases hbuiltin : Builtin.ofName? f with
  | some b => exact (Builtin.ensures_call b args).mono fun _ _ => nofun
  | none =>
    cases hget : frame.functions.get? f with
    | none => exact nofun
    | some closure =>
      obtain ⟨body, hbody, hmiss⟩ := hframe f closure hget
      refine .mono (Q := fun _ => True) ?_ fun _ _ _ => nofun
      dsimp only [Closure.call]
      by_cases hlength : closure.params.length ≠ args.length
      · rw [if_pos hlength]
        exact nofun
      · rw [if_neg hlength]
        by_cases hlimit : atLimit limit depth
        · rw [if_pos hlimit]
          exact nofun
        · rw [if_neg hlimit, hbody]
          exact .bind (.emit _) fun _ _ => henter _ _ body (not_not.mp hlength) hmiss

/-- A run of a list of statements misses only variables that are unbound in the tree, and if it comes
to a value then it leaves nothing dangling. -/
theorem Code.runIn_ensures (limit : Option Nat) (nesting : Nat) : ∀ (depth : Nat)
    {names functions : List String} {frame : Frame} (body : List Stmt), frame.Misses P →
      frame.Tracks names functions → (∀ use ∈ Stmt.unboundAll names body, P use.2) →
        (Code.runIn limit nesting depth (Stmt.compileAll body) frame).Ensures
          (fun _ => Stmt.danglingAll names functions body = []) (Excused P) := by
  induction nesting with
  | zero =>
    intro depth names functions frame body hframe htracks hmiss
    have henter : Enter.Misses P (Code.entering limit 0 depth) := fun _ _ _ _ _ => trivial
    rw [Code.runIn_eq]
    refine .bind (Stmt.stepsAll_ensures (henter.call limit depth) body hframe htracks hmiss)
      fun s hdangling => ?_
    exact s.stack.blamesCode_result.ensures.mono fun _ _ => hdangling
  | succ nesting ih =>
    intro depth names functions frame body hframe htracks hmiss
    have henter : Enter.Misses P (Code.entering limit (nesting + 1) depth) := by
      intro params args body hlength hmiss
      exact (ih (depth + 1) body (Frame.misses_ofCall params args) (Frame.tracks_ofCall hlength)
        hmiss).mono fun _ _ => trivial
    rw [Code.runIn_eq]
    refine .bind (Stmt.stepsAll_ensures (henter.call limit depth) body hframe htracks hmiss)
      fun s hdangling => ?_
    exact s.stack.blamesCode_result.ensures.mono fun _ _ => hdangling

end

namespace Program

variable {p : Program} {limit : Option Nat}

theorem run_ensures (p : Program) (limit : Option Nat) :
    (p.compile.run {} limit).Ensures (fun _ => p.dangling = [])
      (Excused fun x => ∃ id, (id, x) ∈ p.unbound) :=
  Code.runIn_ensures limit _ 0 p.stmts nofun Frame.tracks_empty fun use huse => ⟨use.1, huse⟩

/-- A run misses only variables that are unbound. -/
theorem unbound_of_unknownVariable {x : String}
    (h : (p.compile.run {} limit).result = .error (.unknownVariable x)) :
    ∃ id, (id, x) ∈ p.unbound :=
  (run_ensures p limit).of_error h x rfl

/-- A program with a name dangling comes to no value. -/
theorem dangling_of_run_ok {v : Float} (h : (p.compile.run {} limit).result = .ok v) :
    p.dangling = [] :=
  (run_ensures p limit).of_ok h

end Program
end Abacus
