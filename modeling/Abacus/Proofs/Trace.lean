import Abacus.Event

/-!
# Laws of traced results

A traced result is a writer of events on top of an exception: `bind` joins the events and stops at
the first error, keeping the events that led up to it. So `Traced` is a lawful monad, and everything
here follows from that.

`Traced.Sim` compares two traced results event by event: the same events, and then the same error or
values that are related. It is closed under `bind` (`Sim.bind`), which is how the simulations of the
machine are put together. `Traced.SimBy view` is the same for errors that are seen through a function.
-/
namespace Abacus.Traced

variable {ε ε' α β γ δ : Type}

/-! ## Monad laws -/

theorem ext {x y : Traced ε α} (he : x.events = y.events) (hr : x.result = y.result) : x = y := by
  cases x; cases y; simp_all

theorem ok_bind (a : α) (f : α → Traced ε β) : (ofExcept (.ok a) : Traced ε α) >>= f = f a := rfl

theorem bind_eq (x : Traced ε α) (f : α → Traced ε β) :
    x >>= f = match x.result with
      | .error e => { events := x.events, result := .error e }
      | .ok a => { events := x.events ++ (f a).events, result := (f a).result } := rfl

instance : LawfulMonad (Traced ε) :=
  LawfulMonad.mk' (Traced ε)
    (fun x => by
      obtain ⟨events, result⟩ := x
      cases result with
      | error e => rfl
      | ok a => exact ext (List.append_nil events) rfl)
    (fun _ _ => rfl)
    (fun x f g => by
      obtain ⟨events, result⟩ := x
      cases result with
      | error e => rfl
      | ok a =>
        simp only [bind_eq]
        cases (f a).result with
        | error e => rfl
        | ok b => exact ext (List.append_assoc _ _ _) rfl)

theorem ofExcept_bind (x : Except ε α) (f : α → Except ε β) :
    ofExcept (x >>= f) = ofExcept x >>= fun a => ofExcept (f a) := by
  cases x <;> rfl

/-- Two continuations need to agree only on the value that they get. -/
theorem bind_congr_ok {x : Traced ε α} {f g : α → Traced ε β}
    (h : ∀ a, x.result = .ok a → f a = g a) : x >>= f = x >>= g := by
  obtain ⟨events, result⟩ := x
  cases result with
  | error e => rfl
  | ok a => simp only [bind_eq, h a rfl]

/-! ## What a result comes to -/

theorem result_bind (x : Traced ε α) (f : α → Traced ε β) :
    (x >>= f).result = x.result.bind fun a => (f a).result := by
  obtain ⟨events, result⟩ := x
  cases result <;> rfl

@[simp] theorem result_fail (e : ε) : (fail e : Traced ε α).result = .error e := rfl

theorem result_bind_ok {x : Traced ε α} {f : α → Traced ε β} {b : β}
    (h : (x >>= f).result = .ok b) : ∃ a, x.result = .ok a ∧ (f a).result = .ok b := by
  rw [result_bind] at h
  cases hx : x.result with
  | error e => rw [hx] at h; cases h
  | ok a => rw [hx] at h; exact ⟨a, rfl, h⟩

/-- An error of a sequence is one of its first part or of its second. -/
theorem result_bind_error {x : Traced ε α} {f : α → Traced ε β} {e : ε}
    (h : (x >>= f).result = .error e) :
    x.result = .error e ∨ ∃ a, x.result = .ok a ∧ (f a).result = .error e := by
  rw [result_bind] at h
  cases hx : x.result with
  | error e' => rw [hx] at h; cases h; exact .inl rfl
  | ok a => rw [hx] at h; exact .inr ⟨a, rfl, h⟩

/-! ## Simulation -/

/-- The same error or related values. -/
def Agree (R : α → β → Prop) : Except ε α → Except ε β → Prop
  | .ok a, .ok b => R a b
  | .error e, .error e' => e = e'
  | _, _ => False

theorem Agree.bind {R : α → β → Prop} {S : γ → δ → Prop} {x : Except ε α} {y : Except ε β}
    {f : α → Except ε γ} {g : β → Except ε δ} (h : Agree R x y)
    (hfg : ∀ a b, R a b → Agree S (f a) (g b)) : Agree S (x >>= f) (y >>= g) := by
  match x, y, h with
  | .error _, .error _, rfl => exact rfl
  | .ok a, .ok b, hab => exact hfg a b hab

/-- The same events, then the same error or related values. -/
structure Sim (R : α → β → Prop) (x : Traced ε α) (y : Traced ε β) : Prop where
  events : x.events = y.events
  result : Agree R x.result y.result

namespace Sim

variable {R : α → β → Prop} {S : γ → δ → Prop}

theorem pure {a : α} {b : β} (h : R a b) :
    Sim R (Pure.pure a : Traced ε α) (Pure.pure b) :=
  ⟨rfl, h⟩

theorem fail (e : ε) : Sim R (Traced.fail e) (Traced.fail e) :=
  ⟨rfl, rfl⟩

theorem emit (event : Event) : Sim Eq (Traced.emit event : Traced ε Unit) (Traced.emit event) :=
  ⟨rfl, rfl⟩

theorem bind {x : Traced ε α} {y : Traced ε β} {f : α → Traced ε γ} {g : β → Traced ε δ}
    (h : Sim R x y) (hfg : ∀ a b, R a b → Sim S (f a) (g b)) : Sim S (x >>= f) (y >>= g) := by
  obtain ⟨xs, rx⟩ := x
  obtain ⟨ys, ry⟩ := y
  obtain ⟨he, hr⟩ := h
  obtain rfl : xs = ys := he
  match rx, ry, hr with
  | .error _, .error _, rfl => exact ⟨rfl, rfl⟩
  | .ok a, .ok b, hab =>
    obtain ⟨he, hr⟩ := hfg a b hab
    exact ⟨congrArg (xs ++ ·) he, hr⟩

theorem refl (x : Traced ε α) : Sim Eq x x := by
  refine ⟨rfl, ?_⟩
  cases x.result <;> rfl

theorem eq {x y : Traced ε α} (h : Sim Eq x y) : x = y := by
  obtain ⟨xs, rx⟩ := x
  obtain ⟨ys, ry⟩ := y
  obtain ⟨he, hr⟩ := h
  match rx, ry, hr with
  | .error _, .error _, rfl => exact ext he rfl
  | .ok _, .ok _, rfl => exact ext he rfl

theorem ofExcept {r : Except ε α} {r' : Except ε β} (h : Agree R r r') :
    Sim R (Traced.ofExcept r) (Traced.ofExcept r') :=
  ⟨rfl, h⟩

end Sim

/-! ## Errors seen through a function -/

section
variable (view : ε → ε')

theorem mapError_bind (x : Traced ε α) (f : α → Traced ε β) :
    (x >>= f).mapError view = x.mapError view >>= fun a => (f a).mapError view := by
  obtain ⟨events, result⟩ := x
  cases result <;> rfl

theorem mapError_id (x : Traced ε α) : x.mapError id = x := by
  obtain ⟨events, result⟩ := x
  cases result <;> rfl

theorem Agree.mapError {R : α → β → Prop} {x : Except ε α} {y : Except ε β} (h : Agree R x y) :
    Agree R (x.mapError view) (y.mapError view) := by
  match x, y, h with
  | .error _, .error _, rfl => exact rfl
  | .ok _, .ok _, hab => exact hab

/-- The same events, then errors that look the same or related values. -/
def SimBy (R : α → β → Prop) (x : Traced ε α) (y : Traced ε β) : Prop :=
  Sim R (x.mapError view) (y.mapError view)

end

namespace SimBy

variable {view : ε → ε'} {R : α → β → Prop} {S : γ → δ → Prop}

theorem ofSim {x : Traced ε α} {y : Traced ε β} (h : Sim R x y) : SimBy view R x y :=
  ⟨h.events, h.result.mapError view⟩

theorem pure {a : α} {b : β} (h : R a b) :
    SimBy view R (Pure.pure a : Traced ε α) (Pure.pure b) :=
  ofSim (.pure h)

theorem fail (e : ε) : SimBy view R (Traced.fail e) (Traced.fail e) :=
  ofSim (.fail e)

theorem emit (event : Event) :
    SimBy view Eq (Traced.emit event : Traced ε Unit) (Traced.emit event) :=
  ofSim (.emit event)

theorem ofExcept {r : Except ε α} {r' : Except ε β} (h : Agree R r r') :
    SimBy view R (Traced.ofExcept r) (Traced.ofExcept r') :=
  ofSim (.ofExcept h)

theorem ofAgree {r : Except ε α} {r' : Except ε β} (h : Agree R (r.mapError view) (r'.mapError view)) :
    SimBy view R (Traced.ofExcept r) (Traced.ofExcept r') :=
  ⟨rfl, h⟩

theorem of_eq {x y : Traced ε α} (h : x.mapError view = y.mapError view) : SimBy view Eq x y := by
  unfold SimBy
  rw [h]
  exact .refl _

theorem eq {x y : Traced ε α} (h : SimBy view Eq x y) : x.mapError view = y.mapError view :=
  Sim.eq h

theorem bind {x : Traced ε α} {y : Traced ε β} {f : α → Traced ε γ} {g : β → Traced ε δ}
    (h : SimBy view R x y) (hfg : ∀ a b, R a b → SimBy view S (f a) (g b)) :
    SimBy view S (x >>= f) (y >>= g) := by
  unfold SimBy
  rw [mapError_bind, mapError_bind]
  exact Sim.bind h hfg

end SimBy
end Abacus.Traced
