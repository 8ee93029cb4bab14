import Abacus.Machine.Run
import Abacus.Proofs.Trace

/-!
# Laws of running code

Joined code runs one part after the other (`State.steps_append`), and blocks nest as deeply in it as
in its deeper part (`Code.nesting_append`). A run is the same at every bound on the nesting but for
how it enters the functions it defines (`Code.runIn_eq`), so that proofs by induction on the bound
need no case for zero.

A function is made of a block of the code that runs, so its body nests less deeply than that code.
`State.Within n` says it of everything a run can get at: the blocks on its stack and the bodies of
the functions in its frame nest less than `n` deep. One instruction of code that nests at most `n`
deep keeps it so (`State.Within.step`), and with it a whole run.

Two ways of calling functions that agree in such frames therefore cannot be told apart by such code
(`State.steps_congr`). That is how a property of calls is carried to runs, by induction on the
nesting.

Runs of one code with other limits, or at other depths, need not be equal. What relates them all the
same is a relation of computations that equal ones stand in and that passes from parts to the whole
(`Traced.Congruence`); it relates the runs if it relates single calls (`Traced.Congruence.runIn`).
-/
namespace Abacus

/-! ## Joined code -/

namespace State

variable (call : Caller)

theorem steps_append (a b : Code) (s : State) :
    steps call (a ++ b) s = steps call a s >>= steps call b := by
  induction a generalizing s with
  | nil => rfl
  | cons i rest ih => simp only [List.cons_append, steps, bind_assoc, ih]

theorem steps_singleton (i : Instr) (s : State) : steps call [i] s = s.step call i := by
  simp only [steps, bind_pure]

end State

namespace Code

theorem nesting_append (a b : Code) :
    nesting (a ++ b) = max (nesting a) (nesting b) := by
  induction a with
  | nil => simp [nesting]
  | cons i rest ih => simp only [List.cons_append, nesting, ih, Nat.max_assoc]

/-- How code in which blocks nest at most `nesting` deep enters the functions it defines. -/
def entering (limit : Option Nat) : (nesting depth : Nat) → Enter
  | 0, _ => fun _ _ => .ofExcept (Stack.result [])
  | nesting + 1, depth => runIn limit nesting (depth + 1)

theorem runIn_eq (limit : Option Nat) (nesting depth : Nat) :
    runIn limit nesting depth = runWith limit depth (entering limit nesting depth) := by
  cases nesting <;> rfl

end Code

/-! ## Taking values off a stack -/

namespace Stack

variable {α : Type} {operand : Operand α} {op : Op} {s t : Stack}

theorem of_pop {a : α} (h : s.pop operand op = .ok (a, t)) : s = operand.hold a :: t := by
  cases s with
  | nil => cases h
  | cons value rest =>
    cases hheld : operand.held? value with
    | none => simp [pop, hheld] at h
    | some held =>
      simp only [pop, hheld] at h
      cases h
      rw [operand.held?_eq_some.mp hheld]

theorem of_popCount {n : Nat} (h : s.popCount op = .ok (n, t)) : ∃ v, s = .number v :: t := by
  unfold popCount at h
  cases hpop : s.pop .number op with
  | error e => rw [hpop] at h; cases h
  | ok popped =>
    obtain ⟨v, rest⟩ := popped
    rw [hpop] at h
    simp only [bind, Except.bind] at h
    split at h <;> cases h
    exact ⟨v, of_pop hpop⟩

theorem of_popMany {n : Nat} {as : List α} (h : s.popMany operand op n = .ok (as, t)) :
    s = as.map operand.hold ++ t := by
  induction n generalizing s as with
  | zero => cases h; rfl
  | succ n ih =>
    unfold popMany at h
    cases hpop : s.pop operand op with
    | error e => rw [hpop] at h; cases h
    | ok popped =>
      obtain ⟨a, rest⟩ := popped
      cases hrest : rest.popMany operand op n with
      | error e => simp only [hpop, hrest, bind, Except.bind] at h; cases h
      | ok others =>
        obtain ⟨others, u⟩ := others
        simp only [hpop, hrest, bind, Except.bind] at h
        cases h
        rw [of_pop hpop, ih hrest]
        rfl

end Stack

/-! ## What one operation leaves behind -/

namespace State

variable {call : Caller} {s s' : State}

/-- What an operation can make of a state: a number in place of what it took off the stack, with the
frame as it was or with one more variable; or one more function in the frame. -/
inductive Operated (s : State) : State → Prop
  | value {stack : Stack} (taken : List Value) (v : Float) (hstack : s.stack = taken ++ stack) :
      Operated s { s with stack := .number v :: stack }
  | assigned {stack : Stack} {v : Float} (name : String)
      (hstack : s.stack = .name name :: .number v :: stack) :
      Operated s { stack := .number v :: stack, frame := s.frame.setLocal name v }
  | defined {params : List String} {body : Code} {stack : Stack} (name : String) (count : Float)
      (hstack : s.stack =
        .name name :: .number count :: (params.map Value.name ++ .block body :: stack)) :
      Operated s { stack, frame := s.frame.define name { params, body } }

/-- A value taken off the stack on the way to a result. -/
theorem result_ofExcept_bind {α β : Type} {x : Except RuntimeError α}
    {f : α → Traced RuntimeError β} {b : β}
    (h : (Traced.ofExcept x >>= f).result = .ok b) : ∃ a, x = .ok a ∧ (f a).result = .ok b :=
  Traced.result_bind_ok h

theorem operated (op : Op) (h : (s.operate call op).result = .ok s') : s.Operated s' := by
  cases op with
  | arithmetic operator =>
    obtain ⟨⟨x, t⟩, hx, h⟩ := result_ofExcept_bind h
    obtain ⟨⟨y, u⟩, hy, h⟩ := result_ofExcept_bind h
    obtain ⟨v, -, h⟩ := Traced.result_bind_ok h
    cases h
    refine .value [.number x, .number y] v ?_
    rw [Stack.of_pop hx, Stack.of_pop hy]
    rfl
  | negate =>
    obtain ⟨⟨x, t⟩, hx, h⟩ := result_ofExcept_bind h
    cases h
    exact .value [.number x] (-x) (Stack.of_pop hx)
  | getLocal =>
    obtain ⟨⟨name, t⟩, hname, h⟩ := result_ofExcept_bind h
    dsimp only at h
    split at h
    next v _ =>
      cases h
      exact .value [.name name] v (Stack.of_pop hname)
    next => cases h
  | setLocal =>
    obtain ⟨⟨name, t⟩, hname, h⟩ := result_ofExcept_bind h
    obtain ⟨⟨v, u⟩, hv, h⟩ := result_ofExcept_bind h
    cases h
    refine .assigned name ?_
    rw [Stack.of_pop hname, Stack.of_pop hv]
  | call =>
    obtain ⟨⟨name, t⟩, hname, h⟩ := result_ofExcept_bind h
    obtain ⟨⟨count, u⟩, hcount, h⟩ := result_ofExcept_bind h
    obtain ⟨⟨args, w⟩, hargs, h⟩ := result_ofExcept_bind h
    obtain ⟨v, -, h⟩ := Traced.result_bind_ok h
    cases h
    obtain ⟨c, hu⟩ := Stack.of_popCount hcount
    refine .value (.name name :: .number c :: args.map Value.number) v ?_
    rw [Stack.of_pop hname, hu, Stack.of_popMany hargs]
    rfl
  | define =>
    obtain ⟨⟨name, t⟩, hname, h⟩ := result_ofExcept_bind h
    obtain ⟨⟨count, u⟩, hcount, h⟩ := result_ofExcept_bind h
    obtain ⟨⟨params, w⟩, hparams, h⟩ := result_ofExcept_bind h
    obtain ⟨⟨body, stack⟩, hbody, h⟩ := result_ofExcept_bind h
    obtain ⟨_, -, h⟩ := Traced.result_bind_ok h
    cases h
    obtain ⟨c, hu⟩ := Stack.of_popCount hcount
    refine .defined name c ?_
    rw [Stack.of_pop hname, hu, Stack.of_popMany hparams, Stack.of_pop hbody]

end State

/-! ## Nesting less deeply -/

/-- The functions of the frame have bodies in which blocks nest less than `n` deep. -/
def Frame.Within (n : Nat) (frame : Frame) : Prop :=
  ∀ name closure, frame.functions.get? name = some closure → Code.nesting closure.body < n

/-- All code on the stack or behind a function nests less than `n` deep. -/
structure State.Within (n : Nat) (s : State) : Prop where
  stack : ∀ code, Value.block code ∈ s.stack → Code.nesting code < n
  frame : s.frame.Within n

section
variable {n : Nat}

theorem Frame.within_ofLocals (locals : Locals) : (Frame.ofLocals locals).Within n := by
  intro name closure h
  cases h

theorem Frame.Within.define {frame : Frame} (h : frame.Within n) (name : String) {closure : Closure}
    (hbody : Code.nesting closure.body < n) : (frame.define name closure).Within n :=
  Table.of_get?_insert h hbody

theorem State.within_start (locals : Locals) : State.Within n ⟨[], .ofLocals locals⟩ :=
  ⟨nofun, Frame.within_ofLocals locals⟩

namespace State.Within

variable {s s' : State}

theorem push (h : s.Within n) {v : Value}
    (hv : ∀ code, v = .block code → Code.nesting code < n) : (s.push v).Within n := by
  refine ⟨fun code hcode => ?_, h.frame⟩
  rcases List.mem_cons.mp hcode with heq | hmem
  · exact hv code heq.symm
  · exact h.stack code hmem

theorem operated (h : s.Within n) (hs : s.Operated s') : s'.Within n := by
  obtain ⟨hstack, hframe⟩ := h
  cases hs with
  | @value stack taken v heq =>
    refine ⟨fun code hcode => hstack code ?_, hframe⟩
    rcases List.mem_cons.mp hcode with hv | hmem
    · cases hv
    · rw [heq]
      exact List.mem_append_right _ hmem
  | @assigned stack v name heq =>
    refine ⟨fun code hcode => hstack code ?_, hframe⟩
    rw [heq]
    exact List.mem_cons_of_mem _ hcode
  | @defined params body stack name count heq =>
    have hbody : Value.block body ∈ s.stack := by
      rw [heq]
      simp
    refine ⟨fun code hcode => hstack code ?_, hframe.define name (hstack body hbody)⟩
    rw [heq]
    simp [hcode]

/-- One instruction of code that nests at most `n` deep keeps what the run holds below that. -/
theorem step (h : s.Within n) {call : Caller} {i : Instr} (hi : i.nesting ≤ n)
    (hs : (s.step call i).result = .ok s') : s'.Within n := by
  cases i with
  | number v => cases hs; exact h.push nofun
  | name x => cases hs; exact h.push nofun
  | block code =>
    cases hs
    refine h.push fun body hbody => ?_
    cases hbody
    rw [Instr.nesting] at hi
    omega
  | op op => exact h.operated (State.operated op hs)

end State.Within

theorem Code.nesting_cons {i : Instr} {rest : Code} (h : Code.nesting (i :: rest) ≤ n) :
    i.nesting ≤ n ∧ Code.nesting rest ≤ n := by
  rw [Code.nesting] at h
  omega

/-! ## Runs that call alike -/

theorem State.operate_congr {call call' : Caller} {s : State}
    (h : ∀ name args, call s.frame name args = call' s.frame name args) (op : Op) :
    s.operate call op = s.operate call' op := by
  cases op with
  | call => simp only [State.operate, h]
  | _ => rfl

/-- Code cannot tell apart two ways of calling functions that agree wherever it can get to. -/
theorem State.steps_congr {call call' : Caller}
    (hcall : ∀ frame : Frame, frame.Within n → ∀ name args,
      call frame name args = call' frame name args)
    {code : Code} (hcode : Code.nesting code ≤ n) {s : State} (hs : s.Within n) :
    State.steps call code s = State.steps call' code s := by
  induction code generalizing s with
  | nil => rfl
  | cons i rest ih =>
    obtain ⟨hi, hrest⟩ := Code.nesting_cons hcode
    have hstep : s.step call i = s.step call' i := by
      cases i with
      | op op => exact State.operate_congr (hcall s.frame hs.frame) op
      | _ => rfl
    rw [State.steps, State.steps, hstep]
    refine Traced.bind_congr_ok fun s' hs' => ?_
    exact ih hrest (hs.step hi hs')

end

/-! ## Runs that are related in all their parts -/

/-- A relation of computations in which equal ones stand, and in which computations stand whose parts
do. -/
structure Traced.Congruence (R : ∀ α : Type, Traced RuntimeError α → Traced RuntimeError α → Prop) :
    Prop where
  refl : ∀ {α : Type} (x : Traced RuntimeError α), R α x x
  bind : ∀ {α β : Type} {x y : Traced RuntimeError α} {f g : α → Traced RuntimeError β},
    R α x y → (∀ a, R β (f a) (g a)) → R β (x >>= f) (y >>= g)

namespace Traced.Congruence

variable {R : ∀ α : Type, Traced RuntimeError α → Traced RuntimeError α → Prop}
  (h : Traced.Congruence R)
include h

theorem steps {call call' : State.Caller}
    (hcall : ∀ frame name args, R Float (call frame name args) (call' frame name args))
    (code : Code) (s : State) : R State (State.steps call code s) (State.steps call' code s) := by
  have hstep : ∀ (i : Instr) (s : State), R State (s.step call i) (s.step call' i) := by
    intro i s
    cases i with
    | op op =>
      cases op with
      | call =>
        -- a call is the only operation that asks the caller
        exact h.bind (h.refl _) fun _ => h.bind (h.refl _) fun _ => h.bind (h.refl _) fun _ =>
          h.bind (hcall _ _ _) fun _ => h.refl _
      | _ => exact h.refl _
    | _ => exact h.refl _
  induction code generalizing s with
  | nil => exact h.refl _
  | cons i rest ih => exact h.bind (hstep i s) ih

/-- Calls are related if calls of functions of the program are. -/
theorem call {limit limit' : Option Nat} {depth depth' : Nat} {enter enter' : Enter}
    (hclosure : ∀ (c : Closure) name args, R Float (c.call limit depth enter name args)
      (c.call limit' depth' enter' name args)) (frame : Frame) (name : String) (args : List Float) :
    R Float (frame.call limit depth enter name args)
      (frame.call limit' depth' enter' name args) := by
  unfold Frame.call
  cases Builtin.ofName? name with
  | some b => exact h.refl _
  | none =>
    cases frame.functions.get? name with
    | none => exact h.refl _
    | some closure => exact hclosure closure name args

/-- Runs of one code are related, at depths that correspond and with either limit, if a call of a
function is related whose body is. -/
theorem runIn {limit limit' : Option Nat} (Deep : Nat → Nat → Prop)
    (hdeeper : ∀ {depth depth'}, Deep depth depth' → Deep (depth + 1) (depth' + 1))
    (hclosure : ∀ {depth depth' : Nat} {enter enter' : Enter}, Deep depth depth' →
      (∀ body frame, R Float (enter body frame) (enter' body frame)) → ∀ (c : Closure) name args,
        R Float (c.call limit depth enter name args) (c.call limit' depth' enter' name args))
    (n : Nat) {depth depth' : Nat} (hdeep : Deep depth depth') (code : Code) (frame : Frame) :
    R Float (Code.runIn limit n depth code frame) (Code.runIn limit' n depth' code frame) := by
  induction n generalizing depth depth' code frame with
  | zero =>
    refine h.bind (h.steps (h.call (hclosure hdeep ?_)) code _) fun _ => h.refl _
    exact fun _ _ => h.refl _
  | succ n ih =>
    refine h.bind (h.steps (h.call (hclosure hdeep ?_)) code _) fun _ => h.refl _
    exact ih (hdeeper hdeep)

end Traced.Congruence

end Abacus
