import Abacus.Proofs.Grammar.Sound
import Abacus.Proofs.Grammar.Watched

/-!
# Malformed texts

A rule that neither reads nor declines rejects its tokens: it finds them malformed, with a committed
error that passes through all the rules around it. Such an error says where a text had to go on and
did not (`Malformed`): behind an operator with an operand before it, behind a comma of an argument
list, behind the `=` of the head of a definition; or it names a definition of a built-in function.
Rules start inside a text and end inside it, so what is malformed for a part of a rule is so for the
rule; only the words of `commit` need to know what was read before.

A statement list raises no plain error, since a statement that declines ends it. What it leaves
behind is the third kind of error (`Program.ofTokens_error`).
-/
namespace Abacus

/-- What has to stand behind an operator. -/
def Operator.wants : Operator → String
  | .add | .subtract => "expression"
  | .multiply | .divide | .modulo => "term"
  | .exponentiate => "power"

namespace Grammar

/-- A part of a phrase behind which the phrase has to go on: the text behind it, what has to follow
there, and the part itself. -/
inductive Opens (after : List TokenKind) : String → List TokenKind → Prop
  | operator {front : List TokenKind} {left : Expr} (op : Operator)
      (h : Expression .closed (op.precedence + 1) (front ++ .symbol op.sign :: after)
        (.symbol op.sign :: after) left) :
      Opens after op.wants (front ++ [.symbol op.sign])
  | argument {front : List TokenKind} {args : List Expr} (f : String)
      (h : Arguments .closed (front ++ .symbol .comma :: after) (.symbol .comma :: after) args) :
      Opens after "argument" (.name f :: .symbol .openParen :: (front ++ [.symbol .comma]))
  | body (f : String) (params : List String) (hf : Builtin.ofName? f = none) :
      Opens after "function body" (defineHead f params [])

theorem Opens.word_mem {after front : List TokenKind} {what : String} (h : Opens after what front) :
    what ∈ ["expression", "term", "power", "argument", "function body"] := by
  cases h with
  | operator op => cases op <;> simp [Operator.wants]
  | argument f => simp
  | body f params => simp

theorem defineHead_append (f : String) (params : List String) (text : List TokenKind) :
    defineHead f params text = defineHead f params [] ++ text := by
  simp [defineHead]

/-- Another argument behind a comma. -/
theorem Arguments.snoc {extent : Extent} {text mid rest : List TokenKind} {es : List Expr} {e : Expr}
    (h : Arguments extent text (.symbol .comma :: mid) es) (he : Expression extent 1 mid rest e) :
    Arguments extent text rest (es ++ [e]) := by
  induction es generalizing text with
  | nil => cases h
  | cons first es ih =>
    cases h with
    | one hfirst => exact .more hfirst (.one he)
    | more hfirst hrest => exact .more hfirst (ih hrest)

end Grammar

open Grammar (Expression Arguments Opens)

/-- What a committed error says of the tokens in which it arises. -/
inductive Malformed (tokens : List Token) : SyntaxError → Prop
  | missing {what : String} {before front after : List Token}
      (htokens : tokens = before ++ front ++ after) (h : Opens (kinds after) what (kinds front)) :
      Malformed tokens (SyntaxError.unexpected what after).commit
  | redefinition {f : String} {params : List String} {text : List TokenKind} {before after : List Token}
      {t : Token} (htokens : tokens = before ++ t :: after) (hkind : t.kind = .name f)
      (hf : Builtin.ofName? f ≠ none) (hhead : kinds (t :: after) = Grammar.defineHead f params text) :
      Malformed tokens (.redefinition f t.span)

theorem Malformed.of_suffix {tokens part : List Token} {e : SyntaxError} (h : Malformed part e)
    (hsuffix : part <:+ tokens) : Malformed tokens e := by
  obtain ⟨start, rfl⟩ := hsuffix
  cases h with
  | @missing what before front after htokens h =>
    have hsplit : start ++ part = start ++ before ++ front ++ after := by
      simp only [htokens, List.append_assoc]
    exact .missing hsplit h
  | @redefinition f params text before after t htokens hkind hf hhead =>
    have hsplit : start ++ part = start ++ before ++ t :: after := by
      rw [htokens, List.append_assoc]
    exact .redefinition hsplit hkind hf hhead

namespace Rule

variable {α β : Type} {inner : Inner} {tokens rest : List Token} {e : SyntaxError}

/-! ## Rejecting -/

/-- The rule finds the tokens malformed. -/
def Rejects (inner : Inner) (rule : Rule α) (tokens : List Token) (e : SyntaxError) : Prop :=
  ∃ rest, rule.run inner tokens = { result := .error e, rest } ∧ e.committed = true

theorem Settles.not_rejects {rule : Rule α} (h : Settles inner rule) :
    ¬Rejects inner rule tokens e := by
  rintro ⟨rest, hrun, hcommitted⟩
  rcases h tokens with ⟨a, rest', hreads⟩ | ⟨e', rest', hrun', hplain⟩
  · cases hrun.symm.trans hreads
  · cases hrun.symm.trans hrun'
    rw [hcommitted] at hplain
    cases hplain

theorem Settles.orElse {first second : Rule α} (hfirst : Settles inner first)
    (hsecond : Settles inner second) : Settles inner (first.orElse second) := by
  intro tokens
  rcases hfirst tokens with ⟨a, rest, hreads⟩ | hdeclines
  · exact .inl ⟨a, rest, reads_orElse.mpr (.inl hreads)⟩
  · rcases hsecond tokens with ⟨a, rest, hreads⟩ | hdeclines'
    · exact .inl ⟨a, rest, reads_orElse.mpr (.inr ⟨hdeclines, hreads⟩)⟩
    · exact .inr (declines_orElse.mpr ⟨hdeclines, hdeclines'⟩)

theorem settles_symbol (s : Symbol) : Settles inner (symbol s) :=
  .token

theorem settles_name : Settles inner name :=
  .bind .token fun _ => .pure _

theorem settles_operator (s : Symbol) (op : Operator) : Settles inner (operator s op) :=
  .bind (settles_symbol s) fun _ => .pure op

theorem settles_operatorRule (k : Nat) : Settles inner (operatorRule k) := by
  unfold operatorRule
  split
  · exact (settles_operator _ _).orElse (settles_operator _ _)
  · exact (settles_operator _ _).orElse ((settles_operator _ _).orElse (settles_operator _ _))
  · exact settles_operator _ _

theorem rejects_bind {first : Rule α} {next : α → Rule β} :
    Rejects inner (first >>= next) tokens e ↔ Rejects inner first tokens e ∨
      ∃ a mid, Reads inner first tokens a mid ∧ Rejects inner (next a) mid e := by
  unfold Rejects Reads
  rw [run_bind]
  obtain ⟨result, mid⟩ := first.run inner tokens
  cases result with
  | error e' => simp
  | ok a =>
    constructor
    · exact fun h => .inr ⟨a, mid, rfl, h⟩
    · rintro (⟨_, hfirst, -⟩ | ⟨_, _, hfirst, h⟩)
      · cases hfirst
      · cases hfirst
        exact h

theorem rejects_orElse {first second : Rule α} (h : Rejects inner (first.orElse second) tokens e) :
    Rejects inner first tokens e ∨ Rejects inner second tokens e := by
  obtain ⟨rest, hrun, hcommitted⟩ := h
  rw [run] at hrun
  split at hrun
  next => cases hrun
  next e' rest' hfirst =>
    split at hrun
    · cases hrun
      exact .inl ⟨rest, hfirst, hcommitted⟩
    · exact .inr ⟨rest, hrun, hcommitted⟩

theorem rejects_label {name : String} {rule : Rule α} (h : Rejects inner (.label name rule) tokens e) :
    Rejects inner rule tokens e := by
  obtain ⟨rest, hrun, hcommitted⟩ := h
  rw [run] at hrun
  split at hrun
  next => cases hrun
  next e' rest' hrule =>
    cases hrun
    refine ⟨rest, ?_, hcommitted⟩
    rw [hrule]
    unfold SyntaxError.relabel at hcommitted ⊢
    split at hcommitted
    · rw [if_pos hcommitted]
    next hplain => exact absurd hcommitted hplain

theorem rejects_optional {rule : Rule α} (h : Rejects inner rule.optional tokens e) :
    Rejects inner rule tokens e := by
  obtain ⟨rest, hrun, hcommitted⟩ := h
  rw [run] at hrun
  split at hrun
  next => cases hrun
  next e' rest' hrule =>
    split at hrun <;> cases hrun
    exact ⟨rest, hrule, hcommitted⟩

/-- A committed rule rejects what the rule rejects, and where the rule declines. -/
theorem rejects_commit {name : String} {rule : Rule α}
    (h : Rejects inner (.commit name rule) tokens e) :
    Rejects inner rule tokens e ∨ e = (SyntaxError.unexpected name tokens).commit := by
  obtain ⟨rest, hrun, hcommitted⟩ := h
  rw [run] at hrun
  split at hrun
  next => cases hrun
  next e' rest' hrule =>
    split at hrun <;> cases hrun
    · exact .inl ⟨rest, hrule, hcommitted⟩
    · exact .inr rfl

/-- An error of a repeated rule is one of its turns. -/
theorem error_of_repeated {rule : Rule (Option α)}
    (h : rule.repeated.run inner tokens = { result := .error e, rest }) :
    ∃ turns mid, TurnsTo inner rule turns tokens mid ∧
      rule.run inner mid = { result := .error e, rest } := by
  rw [run] at h
  generalize tokens.length + 1 = bound at h
  induction bound generalizing tokens with
  | zero => cases h
  | succ bound ih =>
    rw [repeatStep] at h
    split at h
    next hstep =>
      cases h
      exact ⟨0, tokens, .start tokens, hstep⟩
    next => cases h
    next a mid hstep =>
      split at h <;> cases h
      next hmore =>
        obtain ⟨turns, last, hturns, hlast⟩ := ih hmore
        exact ⟨turns + 1, last, .turn hstep hturns, hlast⟩

theorem rejects_repeated {rule : Rule (Option α)} (h : Rejects inner rule.repeated tokens e) :
    ∃ turns mid, TurnsTo inner rule turns tokens mid ∧ Rejects inner rule mid e := by
  obtain ⟨rest, hrun, hcommitted⟩ := h
  obtain ⟨turns, mid, hturns, hmid⟩ := error_of_repeated hrun
  exact ⟨turns, mid, hturns, rest, hmid, hcommitted⟩

/-! ## Rules that never decline -/

theorem not_declines_pure {a : α} : ¬Declines inner (pure a) tokens :=
  fun h => h.not_reads (reads_pure.mpr ⟨rfl, rfl⟩)

theorem not_declines_optional {rule : Rule α} : ¬Declines inner rule.optional tokens := by
  rintro ⟨e, rest, hrun, hplain⟩
  rw [run] at hrun
  split at hrun
  next => cases hrun
  next =>
    split at hrun
    next hcommitted =>
      cases hrun
      rw [hplain] at hcommitted
      cases hcommitted
    next => cases hrun

theorem not_declines_repeated {rule : Rule (Option α)} (h : ∀ ts, ¬Declines inner rule ts) :
    ¬Declines inner rule.repeated tokens := by
  rintro ⟨e, rest, hrun, hplain⟩
  obtain ⟨_, mid, -, hmid⟩ := error_of_repeated hrun
  exact h mid ⟨e, rest, hmid, hplain⟩

theorem not_declines_bind {first : Rule α} {next : α → Rule β}
    (hfirst : ∀ ts, ¬Declines inner first ts) (hnext : ∀ a ts, ¬Declines inner (next a) ts) :
    ¬Declines inner (first >>= next) tokens := by
  intro h
  rcases declines_bind.mp h with h | ⟨a, mid, -, h⟩
  · exact hfirst tokens h
  · exact hnext a mid h

/-- A statement that is not there ends a statement list. -/
theorem not_declines_statementList {stmt : Rule Stmt} :
    ¬Declines inner (statementList stmt) tokens := by
  have hnext : ∀ ts, ¬Declines inner (nextStatement stmt) ts := fun _ =>
    not_declines_bind (fun _ => not_declines_optional) fun choice _ => by
      cases choice with
      | none => exact not_declines_pure
      | some _ => exact not_declines_optional
  refine not_declines_bind (fun _ => not_declines_optional) fun choice _ => ?_
  cases choice with
  | none => exact not_declines_pure
  | some _ =>
    exact not_declines_bind (fun _ => not_declines_repeated hnext) fun _ _ => not_declines_pure

/-! ## Rules that say where a text is malformed -/

section
variable {depth : Nat}

theorem Reads.isSuffix {rule : Rule α} {a : α} (h : Reads (innerTo depth) rule tokens a rest) :
    rest <:+ tokens := by
  have hsuffix := isSuffix_run (isSuffix_innerTo depth) rule tokens
  rwa [h] at hsuffix

theorem TurnsTo.isSuffix {rule : Rule (Option α)} {turns : Nat} {mid : List Token}
    (h : TurnsTo (innerTo depth) rule turns tokens mid) : mid <:+ tokens := by
  induction h with
  | start => exact List.suffix_refl _
  | turn hreads _ ih => exact List.IsSuffix.trans ih hreads.isSuffix

/-- What the rule rejects is malformed as its error says. -/
def Blames (depth : Nat) (rule : Rule α) : Prop :=
  ∀ ⦃tokens e⦄, Rejects (innerTo depth) rule tokens e → Malformed tokens e

namespace Blames

theorem of_settles {rule : Rule α} (h : Settles (innerTo depth) rule) : Blames depth rule :=
  fun _ _ hrejects => absurd hrejects h.not_rejects

theorem bind {first : Rule α} {next : α → Rule β} (hfirst : Blames depth first)
    (hnext : ∀ a, Blames depth (next a)) : Blames depth (first >>= next) := by
  intro tokens e h
  rcases rejects_bind.mp h with h | ⟨a, mid, hreads, h⟩
  · exact hfirst h
  · exact (hnext a h).of_suffix hreads.isSuffix

theorem orElse {first second : Rule α} (hfirst : Blames depth first) (hsecond : Blames depth second) :
    Blames depth (first.orElse second) :=
  fun _ _ h => (rejects_orElse h).elim (@hfirst _ _) (@hsecond _ _)

theorem optional {rule : Rule α} (h : Blames depth rule) : Blames depth rule.optional :=
  fun _ _ hrejects => h (rejects_optional hrejects)

theorem repeated {rule : Rule (Option α)} (h : Blames depth rule) : Blames depth rule.repeated := by
  intro tokens e hrejects
  obtain ⟨turns, mid, hturns, hrejects⟩ := rejects_repeated hrejects
  exact (h hrejects).of_suffix hturns.isSuffix

end Blames

/-! ## Chains -/

/-- The word for an operand behind an operator of precedence `k`. -/
def levelName : Nat → String
  | 1 => "expression"
  | 2 => "term"
  | _ => "power"

theorem levelName_precedence (op : Operator) : levelName op.precedence = op.wants := by
  cases op <;> rfl

section
variable {k : Nat} (hk : 1 ≤ k) (hk' : k ≤ 3) {operand : Rule Expr}

include hk hk' in
/-- A link rejects what its operand rejects, or its operator stands last. -/
theorem rejects_chainLink {what : String}
    (h : Rejects (innerTo depth) (chainLink operand (operatorRule k) what) tokens e) :
    ∃ (op : Operator) (t : Token) (after : List Token), op.precedence = k ∧
      t.kind = .symbol op.sign ∧ tokens = t :: after ∧
      (Rejects (innerTo depth) operand after e ∨ e = (SyntaxError.unexpected what after).commit) := by
  rcases rejects_bind.mp h with hops | ⟨choice, mid, hchoice, hlink⟩
  · exact absurd hops (settles_operatorRule k).optional.not_rejects
  · cases choice with
    | none => exact absurd hlink (Settles.pure _).not_rejects
    | some op =>
      obtain ⟨hop, t, hkind, rfl⟩ := (reads_operatorRule hk hk').mp (reads_optional_some.mp hchoice)
      rcases rejects_bind.mp hlink with hoperand | ⟨a, mid', -, hpure⟩
      · exact ⟨op, t, mid, hop, hkind, rfl, rejects_commit hoperand⟩
      · exact absurd hpure (Settles.pure _).not_rejects

variable (hblames : Blames depth operand) (hsound : Sound (innerTo depth) (k + 1) operand)
include hk hk' hblames hsound

/-- Along a chain, the last operand stands in `text` and ends where the next turn begins. -/
theorem malformed_of_turns_chainLink {turns : Nat} {mid last : List Token}
    (h : TurnsTo (innerTo depth) (chainLink operand (operatorRule k) (levelName k)) turns mid last)
    (hrejects : Rejects (innerTo depth) (chainLink operand (operatorRule k) (levelName k)) last e)
    {text : List Token} (hsuffix : mid <:+ text) {left : Expr}
    (hleft : Expression .closed (k + 1) (kinds text) (kinds mid) left) : Malformed text e := by
  induction h generalizing text left with
  | start mid =>
    obtain ⟨op, t, after, rfl, hkind, rfl, h⟩ := rejects_chainLink hk hk' hrejects
    rcases h with h | rfl
    · exact (hblames h).of_suffix ((List.suffix_cons t after).trans hsuffix)
    · obtain ⟨front, rfl⟩ := hsuffix
      rw [levelName_precedence]
      rw [kinds_append, kinds_cons, hkind] at hleft
      have hopens := Opens.operator op hleft
      have hsplit : front ++ t :: after = [] ++ (front ++ [t]) ++ after := by simp
      refine .missing hsplit ?_
      rwa [kinds_append, kinds_cons, kinds_nil, hkind]
  | @turn _ mid mid' _ link h _ ih =>
    obtain ⟨op, next⟩ := link
    obtain ⟨after, hops, hnext⟩ := reads_chainLink_some.mp h
    obtain ⟨-, t, -, rfl⟩ := (reads_operatorRule hk hk').mp hops
    have hafter := ih hrejects hnext.isSuffix (hsound hnext).1
    exact hafter.of_suffix ((List.suffix_cons t after).trans hsuffix)

theorem Blames.chain : Blames depth (chain operand (operatorRule k) (levelName k)) := by
  intro tokens e h
  rcases rejects_bind.mp h with h | ⟨first, mid, hfirst, h⟩
  · exact hblames h
  · rcases rejects_bind.mp h with h | ⟨links, rest, -, h⟩
    · obtain ⟨turns, last, hturns, hrejects⟩ := rejects_repeated h
      exact malformed_of_turns_chainLink hk hk' hblames hsound hturns hrejects hfirst.isSuffix
        (hsound hfirst).1
    · exact absurd h (Settles.pure _).not_rejects

end

/-! ## Arguments -/

section
variable (hblames : Blames depth innerExpression)
include hblames

theorem rejects_nextArgument (h : Rejects (innerTo depth) nextArgument tokens e) :
    ∃ (t : Token) (after : List Token), t.kind = .symbol .comma ∧ tokens = t :: after ∧
      (Malformed after e ∨ e = (SyntaxError.unexpected "argument" after).commit) := by
  rcases rejects_bind.mp h with hcomma | ⟨choice, mid, hchoice, hnext⟩
  · exact absurd hcomma (settles_symbol _).optional.not_rejects
  · cases choice with
    | none => exact absurd hnext (Settles.pure _).not_rejects
    | some comma =>
      obtain ⟨hkind, rfl⟩ := reads_symbol.mp (reads_optional_some.mp hchoice)
      rcases rejects_bind.mp hnext with harg | ⟨a, mid', -, hpure⟩
      · exact ⟨comma, mid, hkind, rfl, (rejects_commit harg).imp_left (@hblames _ _)⟩
      · exact absurd hpure (Settles.pure _).not_rejects

variable (hsound : Sound (innerTo depth) 1 innerExpression)
include hsound

/-- In an argument list, the arguments from the start of `text` on end where a turn begins. -/
theorem malformed_of_turns_nextArgument {turns : Nat} {mid last : List Token}
    (h : TurnsTo (innerTo depth) nextArgument turns mid last)
    (hrejects : Rejects (innerTo depth) nextArgument last e)
    {text : List Token} (hsuffix : mid <:+ text) {args : List Expr}
    (hargs : Arguments .closed (kinds text) (kinds mid) args) :
    Malformed text e ∨ ∃ (front : List Token) (t : Token) (after : List Token) (args : List Expr),
      text = front ++ t :: after ∧ t.kind = .symbol .comma ∧
      Arguments .closed (kinds text) (kinds (t :: after)) args ∧
      e = (SyntaxError.unexpected "argument" after).commit := by
  induction h generalizing args with
  | start mid =>
    obtain ⟨t, after, hkind, rfl, h⟩ := rejects_nextArgument hblames hrejects
    rcases h with h | rfl
    · exact .inl (h.of_suffix ((List.suffix_cons t after).trans hsuffix))
    · obtain ⟨front, rfl⟩ := hsuffix
      exact .inr ⟨front, t, after, args, rfl, hkind, hargs, rfl⟩
  | turn h _ ih =>
    obtain ⟨t, after, hkind, rfl, harg⟩ := reads_nextArgument_some.mp h
    have hnext : _ <:+ text :=
      List.IsSuffix.trans harg.isSuffix ((List.suffix_cons t after).trans hsuffix)
    rw [kinds_cons, hkind] at hargs
    exact ih hrejects hnext (hargs.snoc (hsound harg).1)

theorem rejects_arguments (h : Rejects (innerTo depth) arguments tokens e) :
    Malformed tokens e ∨ ∃ (front : List Token) (t : Token) (after : List Token) (args : List Expr),
      tokens = front ++ t :: after ∧ t.kind = .symbol .comma ∧
      Arguments .closed (kinds tokens) (kinds (t :: after)) args ∧
      e = (SyntaxError.unexpected "argument" after).commit := by
  rcases rejects_bind.mp h with hfirst | ⟨first, mid, hfirst, hothers⟩
  · exact .inl (hblames hfirst)
  · rcases rejects_bind.mp hothers with hothers | ⟨others, mid', -, hpure⟩
    · obtain ⟨turns, last, hturns, hrejects⟩ := rejects_repeated hothers
      exact malformed_of_turns_nextArgument hblames hsound hturns hrejects hfirst.isSuffix
        (.one (hsound hfirst).1)
    · exact absurd hpure (Settles.pure _).not_rejects

theorem Blames.call : Blames depth call := by
  have hhead : Settles (innerTo depth) (name.skip (symbol .openParen)) :=
    .bind settles_name fun _ => .bind (settles_symbol _) fun _ => .pure _
  have hend : ∀ f (args : Option (List Expr)), Settles (innerTo depth) (do
      let _ ← symbol .closeParen
      pure (Expr.call unnumbered f (args.getD []))) :=
    fun _ _ => .bind (settles_symbol _) fun _ => .pure _
  intro tokens e h
  rcases rejects_bind.mp h with h | ⟨f, mid, hopen, hcall⟩
  · exact absurd h hhead.not_rejects
  · obtain ⟨mid', paren, hname, hparen⟩ := reads_skip.mp hopen
    obtain ⟨name, hkind, rfl⟩ := reads_name.mp hname
    obtain ⟨hkind', rfl⟩ := reads_symbol.mp hparen
    rcases rejects_bind.mp hcall with hlist | ⟨args, mid', -, hclose⟩
    · rcases rejects_arguments hblames hsound (rejects_optional hlist) with
        hmalformed | ⟨front, t, after, args, rfl, hcomma, hargs, rfl⟩
      · exact hmalformed.of_suffix ⟨[name, paren], rfl⟩
      · rw [kinds_append, kinds_cons, hcomma] at hargs
        have hsplit : name :: paren :: (front ++ t :: after) =
            [] ++ (name :: paren :: (front ++ [t])) ++ after := by simp
        refine .missing hsplit ?_
        rw [kinds_cons, kinds_cons, kinds_append, kinds_cons, kinds_nil, hkind, hkind', hcomma]
        exact .argument f hargs
    · exact absurd hclose (hend f args).not_rejects

/-! ## Expressions -/

theorem Blames.value : Blames depth value := by
  have hsymbol : ∀ s, Blames depth (symbol s) := fun s => .of_settles (settles_symbol s)
  have hgrouped : Blames depth grouped :=
    .bind (.bind (hsymbol _) fun _ => hblames) fun _ => .bind (hsymbol _) fun _ => .of_settles (.pure _)
  have hnegated : Blames depth negated :=
    .bind (.bind (hsymbol _) fun _ => hblames) fun _ => .of_settles (.pure _)
  have hjuxtaposed : Blames depth juxtaposed :=
    .of_settles (.bind .token fun _ => .bind settles_name fun _ => .pure _)
  have hvar : Blames depth var := .of_settles (.bind settles_name fun _ => .pure _)
  have hnumber : Blames depth number := .of_settles .token
  have hvalue := hgrouped.orElse <| hnegated.orElse <| hjuxtaposed.orElse <|
    (Blames.call hblames hsound).orElse <| hvar.orElse hnumber
  exact fun tokens e h => hvalue (rejects_label h)

theorem Blames.expression : Blames depth expression := by
  have hvalue := sound_value hsound
  have hpower : Blames depth power :=
    .chain (k := 3) (by decide) (by decide) (.value hblames hsound) hvalue
  have hsoundPower : Sound (innerTo depth) 3 power := .level (k := 3) (by decide) (by decide) hvalue
  have hterm : Blames depth term :=
    .chain (k := 2) (by decide) (by decide) hpower hsoundPower
  have hsoundTerm : Sound (innerTo depth) 2 term := .level (k := 2) (by decide) (by decide) hsoundPower
  exact .chain (k := 1) (by decide) (by decide) hterm hsoundTerm

end

/-! ## Statements -/

theorem rejects_ownName {f : String} {span : Text.Span} (h : Rejects inner (ownName f span) tokens e) :
    Builtin.ofName? f ≠ none ∧ e = .redefinition f span := by
  obtain ⟨rest, hrun, -⟩ := h
  unfold ownName at hrun
  split at hrun
  next b hb =>
    cases hrun
    exact ⟨by simp [hb], rfl⟩
  next => cases hrun

theorem Blames.statementList {stmt : Rule Stmt} (h : Blames depth stmt) :
    Blames depth (statementList stmt) := by
  have hnext : Blames depth (nextStatement stmt) := by
    refine .bind (.of_settles (Settles.optional .token)) fun choice => ?_
    cases choice with
    | none => exact .of_settles (.pure none)
    | some _ => exact h.optional
  refine .bind h.optional fun choice => ?_
  cases choice with
  | none => exact .of_settles (.pure [])
  | some _ => exact .bind hnext.repeated fun _ => .of_settles (.pure _)

section
variable (hblames : Blames depth innerStatement)
include hblames

theorem Blames.bracedBody : Blames depth bracedBody := by
  have hsymbol : ∀ s, Blames depth (symbol s) := fun s => .of_settles (settles_symbol s)
  have hopen : Blames depth ((symbol .openBrace).skipLeft newline) :=
    .bind (hsymbol _) fun _ => .of_settles .token
  have hlist : Blames depth (Rule.statementList innerStatement) := .statementList hblames
  exact .bind (.bind hopen fun _ => hlist) fun _ => .bind (hsymbol _) fun _ => .of_settles (.pure _)

/-- The body of a definition is rejected for what is malformed in it, or because it is missing. -/
theorem rejects_body (h : Rejects (innerTo depth) (bracedBody.orElse inlineBody) tokens e) :
    Malformed tokens e ∨ e = (SyntaxError.unexpected "function body" tokens).commit := by
  rcases rejects_orElse h with hbraced | hinline
  · exact .inl (Blames.bracedBody hblames hbraced)
  · rcases rejects_bind.mp hinline with hcommit | ⟨_, _, -, hpure⟩
    · exact (rejects_commit hcommit).imp_left (@hblames _ _)
    · exact absurd hpure (Settles.pure _).not_rejects

theorem Blames.define : Blames depth define := by
  intro tokens e h
  rcases rejects_bind.mp h with hhead | ⟨⟨⟨f, span⟩, ps⟩, mid, hhead, hrest⟩
  · exact absurd hhead settles_defineHead.not_rejects
  · obtain ⟨params, hkinds, -⟩ := kinds_of_reads_defineHead hhead
    obtain ⟨before, rfl⟩ := hhead.isSuffix
    rcases rejects_bind.mp hrest with hown | ⟨_, mid', hown, hbody⟩
    · obtain ⟨hf, rfl⟩ := rejects_ownName hown
      obtain ⟨t, t', left, t'', u, params', hkind, rfl, -, -, -, htokens, -⟩ :=
        reads_defineHead.mp hhead
      rw [htokens] at hkinds ⊢
      exact .redefinition (List.nil_append _).symm hkind hf hkinds
    · obtain ⟨hf, rfl⟩ := reads_ownName.mp hown
      rcases rejects_bind.mp hbody with hbody | ⟨_, _, -, hpure⟩
      · rcases rejects_body hblames hbody with hmalformed | rfl
        · exact hmalformed.of_suffix (List.suffix_append before mid)
        · rw [kinds_append, Grammar.defineHead_append] at hkinds
          have hfront := List.append_cancel_right hkinds
          have hsplit : before ++ mid = [] ++ before ++ mid := by rw [List.nil_append]
          refine .missing hsplit ?_
          rw [hfront]
          exact .body f params hf
      · exact absurd hpure (Settles.pure _).not_rejects

theorem Blames.statement (hexpression : Blames depth Rule.expression) : Blames depth statement := by
  have hassign : Blames depth assign :=
    .bind (.of_settles (.bind settles_name fun _ => .bind (settles_symbol _) fun _ => .pure _)) fun _ =>
      .bind hexpression fun _ => .of_settles (.pure _)
  have hexpr : Blames depth expressionStatement :=
    .bind hexpression fun _ => .of_settles (.pure _)
  exact (Blames.define hblames).orElse (hassign.orElse hexpr)

end

theorem sound_innerExpression (depth : Nat) : Sound (innerTo depth) 1 innerExpression := by
  cases depth with
  | zero => exact fun _ _ _ h => absurd h not_reads_inner_zero
  | succ depth => exact fun _ _ _ h => sound_expression depth (reads_inner.mp h)

/-- Inner phrases blame as their rules do, one level further in. -/
theorem blames_inner (depth : Nat) : ∀ phrase, Blames depth (.inner phrase) := by
  induction depth with
  | zero =>
    rintro phrase tokens e ⟨rest, hrun, hcommitted⟩
    rw [run] at hrun
    cases hrun
    cases tokens <;> cases hcommitted
  | succ depth ih =>
    have hexpression : Blames depth expression :=
      .expression (ih .expression) (sound_innerExpression depth)
    have hphrase : ∀ phrase, Blames depth (ofPhrase phrase)
      | .expression => hexpression
      | .statement => .statement (ih .statement) hexpression
    rintro phrase tokens e ⟨rest, hrun, hcommitted⟩
    rw [run, innerTo] at hrun
    exact hphrase phrase ⟨rest, hrun, hcommitted⟩

theorem blames_stmts (depth : Nat) : Blames depth stmts :=
  .statementList <| .statement (blames_inner depth .statement) <|
    .expression (blames_inner depth .expression) (sound_innerExpression depth)

/-- What the statement list rejects, or the first token that it leaves. -/
theorem error_of_readAll (h : (readAll tokens).result = .error e) :
    (∃ ss t left, stmts.read tokens = { result := .ok ss, rest := t :: left } ∧
      e = .unexpected "newline or end of input" (t :: left)) ∨ Malformed tokens e := by
  unfold readAll at h
  split at h
  next e' rest hread =>
    cases h
    cases hcommitted : e.committed with
    | true => exact .inr (blames_stmts tokens.length ⟨rest, hread, hcommitted⟩)
    | false => exact absurd ⟨e, rest, hread, hcommitted⟩ not_declines_statementList
  next => cases h
  next ss t left hread =>
    cases h
    exact .inl ⟨ss, t, left, hread, rfl⟩

end
end Rule

/-- **The three kinds of syntax errors.** When a token list is no program, then

* the statement list ends before its end, and the plain error describes the first token left;
* or a committed error describes what stands where the text has to go on, or that it ends there:
  behind an operator that has its left operand, behind a comma in the arguments of a call, or behind
  the head of a definition of its own;
* or a committed error names a built-in function at the head of a definition of its name.
-/
theorem Program.ofTokens_error {tokens : List Token} {e : SyntaxError}
    (h : Program.ofTokens tokens = .error e) :
    (∃ ss t left, Rule.stmts.read tokens = { result := .ok ss, rest := t :: left } ∧
      t :: left <:+ tokens ∧
      e = { what := "unexpected token"
            expected := ["newline or end of input"]
            found := some t.describe
            span := some t.span
            committed := false }) ∨
    (∃ what before front after, tokens = before ++ front ++ after ∧
      Opens (kinds after) what (kinds front) ∧
      what ∈ ["expression", "term", "power", "argument", "function body"] ∧
      e = { what := if after.isEmpty then "unexpected end of input" else "unexpected token"
            expected := [what]
            found := after.head?.map Token.describe
            span := after.head?.map Token.span
            committed := true }) ∨
    ∃ f params text before t after, tokens = before ++ t :: after ∧ t.kind = .name f ∧
      Builtin.ofName? f ≠ none ∧ kinds (t :: after) = Grammar.defineHead f params text ∧
      e = { what := s!"cannot redefine stdlib function '{f}'"
            expected := []
            found := none
            span := some t.span
            committed := true } := by
  have hread : (Rule.readAll tokens).result = .error e := by
    unfold Program.ofTokens at h
    cases hresult : (Rule.readAll tokens).result with
    | error e' => rw [hresult] at h; cases h; rfl
    | ok ss => rw [hresult] at h; cases h
  rcases Rule.error_of_readAll hread with ⟨ss, t, left, hstmts, rfl⟩ | hmalformed
  · have hsuffix := Rule.isSuffix_read Rule.stmts tokens
    rw [hstmts] at hsuffix
    exact .inl ⟨ss, t, left, hstmts, hsuffix, rfl⟩
  · cases hmalformed with
    | @missing what before front after htokens hopens =>
      refine .inr (.inl ⟨what, before, front, after, htokens, hopens, hopens.word_mem, ?_⟩)
      cases after <;> rfl
    | @redefinition f params text before after t htokens hkind hf hhead =>
      exact .inr (.inr ⟨f, params, text, before, t, after, htokens, hkind, hf, hhead, rfl⟩)

/-- The tokens of `f(x,)`. -/
def danglingComma : List Token := [
  { kind := .name "f", span := ⟨⟨0, 0⟩, ⟨0, 1⟩, "f"⟩, offset := 0 },
  { kind := .symbol .openParen, span := ⟨⟨0, 1⟩, ⟨0, 2⟩, "("⟩, offset := 1 },
  { kind := .name "x", span := ⟨⟨0, 2⟩, ⟨0, 3⟩, "x"⟩, offset := 2 },
  { kind := .symbol .comma, span := ⟨⟨0, 3⟩, ⟨0, 4⟩, ","⟩, offset := 3 },
  { kind := .symbol .closeParen, span := ⟨⟨0, 4⟩, ⟨0, 5⟩, ")"⟩, offset := 4 }]

/-- Of the three kinds of errors this is the second. -/
theorem Program.ofTokens_error_danglingComma :
    ∃ e, Program.ofTokens danglingComma = .error e ∧ e.expected = ["argument"] ∧
      ∃ what before front after, danglingComma = before ++ front ++ after ∧
        Opens (kinds after) what (kinds front) ∧ e.expected = [what] ∧
        e.found = after.head?.map Token.describe ∧ e.span = after.head?.map Token.span := by
  have herror : Program.ofTokens danglingComma = .error
      { what := "unexpected token"
        expected := ["argument"]
        found := some "')'"
        span := some ⟨⟨0, 4⟩, ⟨0, 5⟩, ")"⟩
        committed := true } := rfl
  refine ⟨_, herror, rfl, ?_⟩
  rcases Program.ofTokens_error herror with
    ⟨_, _, _, -, -, he⟩ | ⟨what, before, front, after, htokens, hopens, -, he⟩ |
      ⟨_, _, _, _, _, _, -, -, -, -, he⟩
  · cases congrArg SyntaxError.committed he
  · exact ⟨what, before, front, after, htokens, hopens, congrArg SyntaxError.expected he,
      congrArg SyntaxError.found he, congrArg SyntaxError.span he⟩
  · cases congrArg SyntaxError.expected he

end Abacus
