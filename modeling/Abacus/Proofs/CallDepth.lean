import Abacus.Code.Compile
import Abacus.Proofs.Running
import Abacus.Syntax.Node

/-!
# Every run ends, and a limit only cuts it short

A call is a run inside a run, and nothing in the machine itself says that this comes to an end.
`Config.turn` is the machine as it stands between two instructions: the run under way and the runs
that wait for it, however many. It knows no bound on the nesting of calls. What bounds them is that a
function is made of a block of the code that defines it and starts without functions of its own, so
that every run in a run has code that nests less deeply.

Hence the machine stops after some number of turns (`Config.ends_start`), having come to what
`Code.run` comes to, and a call that would be refused by a limit on the depth is never reached if the
limit is no less than the nesting (`Code.runIn_limit`). A smaller limit can only cut a run short
(`Code.runIn_cut`).
-/
namespace Abacus

/-! ## One instruction at a time -/

/-- What a call comes to at once: its value, or code that has to be run for it in a frame. -/
def Frame.answer (limit : Option Nat) (depth : Nat) (frame : Frame) (name : String)
    (args : List Float) : Traced RuntimeError (Float ⊕ Code × Frame) :=
  match Builtin.ofName? name with
  | some b => do
    let value ← b.call args
    pure (.inl value)
  | none =>
    match frame.functions.get? name with
    | none => Traced.fail (.unknownFunction name)
    | some closure =>
      if closure.params.length ≠ args.length then
        Traced.fail (.arity name closure.params.length args.length)
      else if atLimit limit depth then
        Traced.fail (.callDepthExceeded (limit.getD 0))
      else do
        Traced.emit (.call name (depth + 1))
        pure (.inr (closure.body, .ofCall closure.params args))

/-- A run that is not finished: the code it still has to go through. -/
structure Activation where
  rest : Code
  state : State

/-- The machine between two instructions: the run under way and the runs that wait for the value of
a call, the innermost first. -/
structure Config where
  active : Activation
  waiting : List Activation

namespace Config

def start (code : Code) (locals : Locals) : Config :=
  { active := { rest := code, state := { stack := [], frame := .ofLocals locals } }, waiting := [] }

/-- Gives the value of a call to the run that waits for it; without one it is the value of all. -/
def resume (value : Float) : List Activation → Config ⊕ Float
  | [] => .inr value
  | caller :: waiting =>
    .inl { active := { caller with state := caller.state.push (.number value) }, waiting }

/-- Carries out one instruction, or returns from a run that has none left. -/
def turn (limit : Option Nat) (c : Config) : Traced RuntimeError (Config ⊕ Float) :=
  let s := c.active.state
  match c.active.rest with
  | [] => do
    let value ← .ofExcept s.stack.result
    pure (resume value c.waiting)
  | .op .call :: rest => do
    let (name, stack) ← .ofExcept (s.stack.pop .name .call)
    let (count, stack) ← .ofExcept (stack.popCount .call)
    let (args, stack) ← .ofExcept (stack.popMany .number .call count)
    let caller := { rest, state := { s with stack } : Activation }
    match ← s.frame.answer limit c.waiting.length name args with
    | .inl value => pure (resume value (caller :: c.waiting))
    | .inr (body, frame) =>
      pure (.inl { active := { rest := body, state := { stack := [], frame } }
                   waiting := caller :: c.waiting })
  | i :: rest => do
    let state ← s.step (fun _ name _ => Traced.fail (.unknownFunction name)) i
    pure (.inl { c with active := { rest, state } })

/-- Goes on, unless the machine has stopped. -/
def andThen (next : Config → Traced RuntimeError (Config ⊕ Float)) :
    Config ⊕ Float → Traced RuntimeError (Config ⊕ Float)
  | .inl c => next c
  | .inr value => pure (.inr value)

/-- The machine after `n` turns, or the value that it has come to before. -/
def turns (limit : Option Nat) : (n : Nat) → Config → Traced RuntimeError (Config ⊕ Float)
  | 0, c => pure (.inl c)
  | n + 1, c => c.turn limit >>= andThen (turns limit n)

end Config

/-! ## The machine stops -/

namespace Config

variable {limit : Option Nat}

/-- The machine stops after some number of turns, having come to this result. -/
def Ends (limit : Option Nat) (c : Config) (x : Traced RuntimeError Float) : Prop :=
  ∃ n, c.turns limit n = x >>= fun value => pure (.inr value)

/-- A turn after which the machine stops, having come to this result. -/
def Leads (limit : Option Nat) (t : Traced RuntimeError (Config ⊕ Float))
    (x : Traced RuntimeError Float) : Prop :=
  ∃ n, t >>= andThen (turns limit n) = x >>= fun value => pure (.inr value)

theorem Leads.ends {c : Config} {x : Traced RuntimeError Float} (h : Leads limit (c.turn limit) x) :
    c.Ends limit x := by
  obtain ⟨n, hn⟩ := h
  exact ⟨n + 1, hn⟩

theorem Leads.config {c : Config} {x : Traced RuntimeError Float} (h : c.Ends limit x) :
    Leads limit (pure (.inl c)) x :=
  h

theorem Leads.value (v : Float) : Leads limit (pure (.inr v)) (pure v) :=
  ⟨0, rfl⟩

/-- What comes before a turn comes before its result. -/
theorem Leads.bind {α : Type} {a : Traced RuntimeError α}
    {t : α → Traced RuntimeError (Config ⊕ Float)} {x : α → Traced RuntimeError Float}
    (h : ∀ v, a.result = .ok v → Leads limit (t v) (x v)) : Leads limit (a >>= t) (a >>= x) := by
  cases hresult : a.result with
  | error e =>
    refine ⟨0, ?_⟩
    rw [bind_assoc, bind_assoc]
    refine Traced.bind_congr_ok fun v hv => ?_
    rw [hresult] at hv
    cases hv
  | ok v =>
    obtain ⟨n, hn⟩ := h v hresult
    refine ⟨n, ?_⟩
    rw [bind_assoc, bind_assoc]
    refine Traced.bind_congr_ok fun w hw => ?_
    rw [hresult] at hw
    cases hw
    exact hn

/-- Whatever value the runs that wait are given, the machine goes on with them and stops. -/
def Awaits (limit : Option Nat) (waiting : List Activation)
    (next : Float → Traced RuntimeError Float) : Prop :=
  ∀ value, Leads limit (pure (resume value waiting)) (next value)

theorem awaits_nil : Awaits limit [] pure :=
  Leads.value

end Config

/-- A call does what it comes to at once, and then runs what has to be run for it. -/
theorem Frame.call_eq_answer (limit : Option Nat) (depth : Nat) (enter : Enter) (frame : Frame)
    (name : String) (args : List Float) :
    frame.call limit depth enter name args = frame.answer limit depth name args >>= fun r =>
      match r with
      | .inl value => pure value
      | .inr (body, callee) => enter body callee := by
  unfold Frame.call Frame.answer
  cases Builtin.ofName? name with
  | some b => simp only [bind_assoc, pure_bind, bind_pure]
  | none =>
    cases frame.functions.get? name with
    | none => rfl
    | some closure =>
      unfold Closure.call
      dsimp only
      split
      · rfl
      · split
        · rfl
        · simp only [bind_assoc, pure_bind]

/-- Only the code of a function in the frame is ever run for a call. -/
theorem Frame.of_answer {limit : Option Nat} {depth : Nat} {frame callee : Frame} {name : String}
    {args : List Float} {body : Code}
    (h : (frame.answer limit depth name args).result = .ok (.inr (body, callee))) :
    ∃ closure, frame.functions.get? name = some closure ∧ body = closure.body ∧
      callee = .ofCall closure.params args := by
  unfold Frame.answer at h
  cases hbuiltin : Builtin.ofName? name with
  | some b =>
    rw [hbuiltin] at h
    obtain ⟨v, -, h⟩ := Traced.result_bind_ok h
    cases h
  | none =>
    rw [hbuiltin] at h
    cases hclosure : frame.functions.get? name with
    | none => rw [hclosure] at h; cases h
    | some closure =>
      simp only [hclosure] at h
      split at h
      · cases h
      · split at h
        · cases h
        · obtain ⟨_, -, h⟩ := Traced.result_bind_ok h
          cases h
          exact ⟨closure, rfl, rfl, rfl⟩

namespace Config

variable {limit : Option Nat}

theorem turn_of_ne_call {call : State.Caller} {i : Instr} (hi : i ≠ .op .call) (rest : Code)
    (s : State) (waiting : List Activation) :
    Config.turn limit ⟨⟨i :: rest, s⟩, waiting⟩ =
      s.step call i >>= fun s => pure (.inl ⟨⟨rest, s⟩, waiting⟩) := by
  cases i with
  | op op =>
    cases op with
    | call => exact absurd rfl hi
    | _ => rfl
  | _ => rfl

/-- A run stops if everything does that it may have to run for a call. -/
theorem ends_steps {n : Nat} {enter : Enter} {waiting : List Activation}
    (henter : ∀ (body : Code) (locals : Locals) (caller : Activation)
      (next : Float → Traced RuntimeError Float), Code.nesting body < n →
        Awaits limit (caller :: waiting) next →
          Ends limit ⟨⟨body, ⟨[], .ofLocals locals⟩⟩, caller :: waiting⟩
            (enter body (.ofLocals locals) >>= next))
    {next : Float → Traced RuntimeError Float} (hnext : Awaits limit waiting next)
    {code : Code} (hcode : Code.nesting code ≤ n) {s : State} (hs : s.Within n) :
    Ends limit ⟨⟨code, s⟩, waiting⟩
      (State.steps (Frame.call limit waiting.length enter) code s >>= fun s =>
        .ofExcept s.stack.result >>= next) := by
  induction code generalizing s with
  | nil => exact Leads.ends (Leads.bind fun value _ => hnext value)
  | cons i rest ih =>
    obtain ⟨hi, hrest⟩ := Code.nesting_cons hcode
    by_cases hcall : i = .op .call
    · subst hcall
      refine Leads.ends ?_
      simp only [State.steps, State.step, State.operate, Frame.call_eq_answer, bind_assoc]
      refine Leads.bind fun named hname => ?_
      obtain ⟨name, t⟩ := named
      refine Leads.bind fun counted hcount => ?_
      obtain ⟨count, u⟩ := counted
      refine Leads.bind fun taken hargs => Leads.bind fun r hr => ?_
      obtain ⟨args, stack⟩ := taken
      -- what is left on the stack was there before
      have hstack : ∀ v : Float, State.Within n { s with stack := .number v :: stack } := by
        intro v
        obtain ⟨c, hu⟩ := Stack.of_popCount hcount
        refine hs.operated (.value (.name name :: .number c :: args.map Value.number) v ?_)
        rw [Stack.of_pop hname, hu, Stack.of_popMany hargs]
        rfl
      cases r with
      | inl value => exact Leads.config (ih hrest (hstack value))
      | inr entered =>
        obtain ⟨body, callee⟩ := entered
        obtain ⟨closure, hclosure, rfl, rfl⟩ := Frame.of_answer hr
        refine Leads.config (henter _ _ _ _ (hs.frame name closure hclosure) fun value => ?_)
        exact Leads.config (ih hrest (hstack value))
    · refine Leads.ends ?_
      rw [turn_of_ne_call hcall, State.steps, bind_assoc]
      exact Leads.bind fun s' hs' => Leads.config (ih hrest (hs.step hi hs'))

/-- The machine stops on every code, having come to what a run of it comes to. -/
theorem ends_runIn (n : Nat) {code : Code} (hcode : Code.nesting code ≤ n) (locals : Locals)
    {waiting : List Activation} {next : Float → Traced RuntimeError Float}
    (hnext : Awaits limit waiting next) :
    Ends limit ⟨⟨code, ⟨[], .ofLocals locals⟩⟩, waiting⟩
      (Code.runIn limit n waiting.length code (.ofLocals locals) >>= next) := by
  induction n generalizing code locals waiting next with
  | zero =>
    rw [Code.runIn_eq, Code.runWith, bind_assoc]
    exact ends_steps (fun _ _ _ _ hbody => absurd hbody (Nat.not_lt_zero _)) hnext hcode
      (State.within_start locals)
  | succ n ih =>
    rw [Code.runIn_eq, Code.runWith, bind_assoc]
    refine ends_steps (fun body locals caller next hbody hnext => ?_) hnext hcode
      (State.within_start locals)
    exact ih (Nat.le_of_lt_succ hbody) locals hnext

theorem ends_start (code : Code) (locals : Locals) :
    (start code locals).Ends limit (code.run locals limit) := by
  have h := ends_runIn code.nesting (Nat.le_refl _) locals (awaits_nil : Awaits limit [] pure)
  rwa [bind_pure] at h

end Config

/-! ## A limit that is never reached -/

/-- Calls are the same where a function of the frame is entered alike. -/
theorem Frame.call_congr {n : Nat} {limit limit' : Option Nat} {depth : Nat} {enter enter' : Enter}
    (hlimit : 0 < n → atLimit limit depth = false ∧ atLimit limit' depth = false)
    (henter : ∀ body locals, Code.nesting body < n →
      enter body (.ofLocals locals) = enter' body (.ofLocals locals))
    {frame : Frame} (hframe : frame.Within n) (name : String) (args : List Float) :
    frame.call limit depth enter name args = frame.call limit' depth enter' name args := by
  unfold Frame.call
  cases Builtin.ofName? name with
  | some b => rfl
  | none =>
    cases hclosure : frame.functions.get? name with
    | none => rfl
    | some closure =>
      have hbody := hframe name closure hclosure
      obtain ⟨hfalse, hfalse'⟩ := hlimit (by omega)
      simp only [Closure.call, Frame.ofCall, hfalse, hfalse', henter _ _ hbody, Bool.false_eq_true,
        if_false]

namespace Code

/-- A limit is never reached by code at this depth that nests no deeper than what is left of it. -/
theorem runIn_limit {limit : Nat} (n : Nat) {depth : Nat} (hlimit : n + depth ≤ limit) {code : Code}
    (hcode : Code.nesting code ≤ n) (locals : Locals) :
    runIn (some limit) n depth code (.ofLocals locals) =
      runIn none n depth code (.ofLocals locals) := by
  induction n generalizing depth code locals with
  | zero =>
    have hcall : ∀ frame : Frame, frame.Within 0 → ∀ name args,
        frame.call (some limit) depth (entering (some limit) 0 depth) name args =
          frame.call none depth (entering none 0 depth) name args :=
      fun frame hframe => Frame.call_congr (fun h => absurd h (Nat.lt_irrefl 0))
        (fun _ _ h => absurd h (Nat.not_lt_zero _)) hframe
    rw [runIn_eq, runIn_eq, runWith, runWith,
      State.steps_congr hcall hcode (State.within_start locals)]
  | succ n ih =>
    have hcall : ∀ frame : Frame, frame.Within (n + 1) → ∀ name args,
        frame.call (some limit) depth (entering (some limit) (n + 1) depth) name args =
          frame.call none depth (entering none (n + 1) depth) name args := by
      intro frame hframe
      refine Frame.call_congr (fun _ => ⟨?_, rfl⟩) (fun body locals hbody => ?_) hframe
      · rw [atLimit, decide_eq_false_iff_not]
        omega
      · exact ih (by omega) (Nat.le_of_lt_succ hbody) locals
    rw [runIn_eq, runIn_eq, runWith, runWith,
      State.steps_congr hcall hcode (State.within_start locals)]

end Code

/-! ## A limit that is reached -/

namespace Traced

variable {α β : Type}

/-- The same, or cut short by a limit on the depth of calls. -/
def Cut (limit : Nat) (x y : Traced RuntimeError α) : Prop :=
  x = y ∨ x.result = .error (.callDepthExceeded limit) ∧ x.events <+: y.events

variable {limit : Nat}

theorem Cut.refl (x : Traced RuntimeError α) : Cut limit x x :=
  .inl rfl

theorem Cut.bind {x y : Traced RuntimeError α} {f g : α → Traced RuntimeError β}
    (hxy : Cut limit x y) (hfg : ∀ a, Cut limit (f a) (g a)) : Cut limit (x >>= f) (y >>= g) := by
  rcases hxy with rfl | ⟨hresult, hevents⟩
  · cases hx : x.result with
    | error e =>
      refine .inl (bind_congr_ok fun a ha => ?_)
      rw [hx] at ha
      cases ha
    | ok a =>
      rcases hfg a with heq | ⟨hresult, hevents⟩
      · refine .inl (bind_congr_ok fun b hb => ?_)
        rw [hx] at hb
        cases hb
        exact heq
      · refine .inr ⟨?_, ?_⟩
        · rw [result_bind, hx]
          exact hresult
        · rw [bind_eq, bind_eq, hx]
          exact (List.prefix_append_right_inj _).mpr hevents
  · refine .inr ⟨?_, ?_⟩
    · rw [result_bind, hresult]
      rfl
    · have hx : (x >>= f).events = x.events := by
        rw [bind_eq, hresult]
      have hy : y.events <+: (y >>= g).events := by
        rw [bind_eq]
        cases y.result with
        | error e => exact List.prefix_rfl
        | ok a => exact List.prefix_append _ _
      rw [hx]
      exact hevents.trans hy

end Traced

theorem Traced.congruence_cut (limit : Nat) : Traced.Congruence fun _ => Traced.Cut limit :=
  ⟨Traced.Cut.refl, Traced.Cut.bind⟩

section
variable {limit : Nat}

open Traced (Cut)

theorem Closure.call_cut {depth : Nat} {enter enter' : Enter}
    (henter : ∀ body frame, Cut limit (enter body frame) (enter' body frame)) (c : Closure)
    (name : String) (args : List Float) :
    Cut limit (c.call (some limit) depth enter name args) (c.call none depth enter' name args) := by
  unfold Closure.call
  by_cases harity : c.params.length ≠ args.length
  · rw [if_pos harity, if_pos harity]
    exact .refl _
  · rw [if_neg harity, if_neg harity]
    cases atLimit (some limit) depth with
    | true => exact .inr ⟨rfl, List.nil_prefix⟩
    | false => exact .bind (.refl _) fun _ => henter _ _

/-- A limit changes nothing about a run but that it may cut it short. -/
theorem Code.runIn_cut (n depth : Nat) (code : Code) (frame : Frame) :
    Cut limit (runIn (some limit) n depth code frame) (runIn none n depth code frame) := by
  refine (Traced.congruence_cut limit).runIn Eq (congrArg (· + 1)) ?_ n rfl code frame
  rintro depth _ enter enter' rfl henter
  exact Closure.call_cut henter

end

/-! ## Every run -/

/-- **Every run ends, and a limit only cuts it short**. Any code whatsoever, with or without a limit,
brings the machine to a value or an error after some number of turns. A limit that is no less than
the nesting of the code does not show. A smaller one does not show either, or it is what the run
fails for, after some first part of the events of the run without a limit. -/
theorem Code.run_ends (code : Code) (locals : Locals) :
    (∀ limit, (Config.start code locals).Ends limit (code.run locals limit)) ∧
    (∀ limit, code.nesting ≤ limit → code.run locals (some limit) = code.run locals none) ∧
    ∀ limit, code.run locals (some limit) = code.run locals none ∨
      (code.run locals (some limit)).result = .error (.callDepthExceeded limit) ∧
        (code.run locals (some limit)).events <+: (code.run locals none).events ∧
        (code.run locals (some limit)).printed <+: (code.run locals none).printed := by
  refine ⟨fun _ => Config.ends_start code locals, fun limit hlimit => ?_, fun limit => ?_⟩
  · exact runIn_limit code.nesting hlimit (Nat.le_refl _) locals
  · have hcut : Traced.Cut limit (code.run locals (some limit)) (code.run locals none) :=
      runIn_cut code.nesting 0 code (.ofLocals locals)
    rcases hcut with heq | ⟨hresult, hevents⟩
    · exact .inl heq
    · exact .inr ⟨hresult, hevents, hevents.filterMap _⟩

/-- A function that prints its argument and hands it on to a function of its own, called with 2. -/
def Program.nestedCall : Program :=
  .ofStmts
    [ .define unnumbered "f" { id := unnumbered, params := [{ id := unnumbered, name := "x" }] }
        unnumbered
        [ .define unnumbered "g" { id := unnumbered, params := [{ id := unnumbered, name := "y" }] }
            unnumbered [.expr (.var unnumbered "y")],
          .expr (.call unnumbered "g" [.call unnumbered "print" [.var unnumbered "x"]]) ],
      .expr (.call unnumbered "f" [.number unnumbered 2 none]) ]

theorem Code.run_ends_nestedCall :
    Program.nestedCall.compile.nesting = 2 ∧
      Program.nestedCall.compile.run {} (some 2) = Program.nestedCall.compile.run {} none ∧
      (Program.nestedCall.compile.run {} none).result = .ok 2 ∧
      (Program.nestedCall.compile.run {} (some 1)).result = .error (.callDepthExceeded 1) ∧
      (Program.nestedCall.compile.run {} (some 1)).printed = [2] := by
  have hnesting : Program.nestedCall.compile.nesting = 2 := rfl
  exact ⟨hnesting, (run_ends Program.nestedCall.compile {}).2.1 2 (Nat.le_of_eq hnesting), rfl, rfl, rfl⟩

end Abacus
