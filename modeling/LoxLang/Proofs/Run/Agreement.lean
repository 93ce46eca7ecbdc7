import LoxLang.Proofs.Run.Lockstep
import LoxLang.Proofs.Run.Output

/-!
# Chains that agree on some names

`Chain.AgreeOn P` relates chains whose scopes, one by one, give the same values to the names that satisfy
`P` and leave the same of them unbound. It is used in two ways. An execution that writes no such name
leaves a chain that agrees with the one before it (`Stmt.execAll_unwritten`). And executions of a
program whose names are all such names keep step on chains that agree (`Stmt.execAll_agreeOn`), whatever
else is bound there and whatever the lines of the program's tokens are. With sinks that take everything they
also print the same, whatever the sinks hold (`Stmt.exists_execAll_agreeOn`).
-/

namespace LoxLang

section
variable {P : String → Prop}

/-- The scopes give the same values to the names that satisfy `P`. -/
def Scope.AgreeOn (P : String → Prop) (s t : Scope) : Prop :=
  ∀ name, P name → t.get? name = s.get? name

namespace Scope.AgreeOn

/-- A scope agrees with itself. -/
theorem refl (s : Scope) : s.AgreeOn P s :=
  fun _ _ => rfl

/-- Scopes agree in two steps. -/
theorem trans {s t u : Scope} (hs : s.AgreeOn P t) (ht : t.AgreeOn P u) : s.AgreeOn P u :=
  fun name hname => (ht name hname).trans (hs name hname)

/-- Binding a name on both sides. -/
theorem define {s t : Scope} (h : s.AgreeOn P t) (name : String) (v : Value) :
    (s.define name v).AgreeOn P (t.define name v) := by
  intro other hother
  by_cases hne : other = name
  · rw [hne, s.get?_define_self, t.get?_define_self]
  · rw [s.get?_define_of_ne hne, t.get?_define_of_ne hne, h other hother]

/-- Binding a name that does not matter on one side. -/
theorem of_define {name : String} (hname : ¬P name) (s : Scope) (v : Value) :
    s.AgreeOn P (s.define name v) := by
  intro other hother
  refine s.get?_define_of_ne ?_ v
  rintro rfl
  exact hname hother

end Scope.AgreeOn

namespace Chain

/-- The chains are equally long, and their scopes agree one by one. -/
def AgreeOn (P : String → Prop) : Chain → Chain → Prop
  | root s, root t => s.AgreeOn P t
  | inner s c, inner t d => s.AgreeOn P t ∧ AgreeOn P c d
  | root _, inner _ _ | inner _ _, root _ => False

namespace AgreeOn

/-- A chain agrees with itself. -/
theorem refl (c : Chain) : c.AgreeOn P c := by
  induction c with
  | root s => exact Scope.AgreeOn.refl s
  | inner s outer ih => exact ⟨.refl s, ih⟩

/-- Chains agree in two steps. -/
theorem trans {c d e : Chain} (hc : c.AgreeOn P d) (hd : d.AgreeOn P e) : c.AgreeOn P e := by
  induction c generalizing d e with
  | root s =>
    cases d with
    | inner => exact hc.elim
    | root t =>
    cases e with
    | inner => exact hd.elim
    | root u => exact Scope.AgreeOn.trans hc hd
  | inner s c ih =>
    cases d with
    | root => exact hc.elim
    | inner t d =>
    cases e with
    | root => exact hd.elim
    | inner u e => exact ⟨hc.1.trans hd.1, ih hc.2 hd.2⟩

/-- Chains that agree have roots that do. -/
theorem globals {c d : Chain} (h : c.AgreeOn P d) : c.globals.AgreeOn P d.globals := by
  induction c generalizing d with
  | root s =>
    cases d with
    | root t => exact h
    | inner => exact h.elim
  | inner s c ih =>
    cases d with
    | root => exact h.elim
    | inner t d =>
      rw [Chain.globals, Chain.globals]
      exact ih h.2

/-- Chains still agree when the innermost scope is left. -/
theorem leave {s : Scope} {c d : Chain} (h : (inner s c).AgreeOn P d) : c.AgreeOn P d.leave := by
  cases d with
  | root => exact h.elim
  | inner t d => exact h.2

/-- A name that chains agree on has the same value in both. -/
theorem get?_eq {c d : Chain} (h : c.AgreeOn P d) {name : String} (hname : P name) :
    d.get? name = c.get? name := by
  induction c generalizing d with
  | root s =>
    cases d with
    | root t => exact h name hname
    | inner => exact h.elim
  | inner s c ih =>
    cases d with
    | root => exact h.elim
    | inner t d => rw [get?, get?, h.1 name hname, ih h.2]

/-- Chains still agree when a name is bound in both, be it one they agree on or not. -/
theorem define {c d : Chain} (h : c.AgreeOn P d) (name : String) (v : Value) :
    (c.define name v).AgreeOn P (d.define name v) := by
  cases c <;> cases d
  case root.root => exact Scope.AgreeOn.define h name v
  case root.inner | inner.root => exact h
  case inner.inner => exact ⟨h.1.define name v, h.2⟩

/-- Assigning a name that matters on both sides: either it is bound on neither, or the chains agree
again. -/
theorem assign {c d : Chain} (h : c.AgreeOn P d) {name : String} (hname : P name) (v : Value) :
    Option.Rel (AgreeOn P) (c.assign? name v) (d.assign? name v) := by
  induction c generalizing d with
  | root s =>
    cases d with
    | inner => exact h.elim
    | root t =>
      have hget : t.get? name = s.get? name := h name hname
      rw [assign?, assign?, hget]
      split
      · exact .some (Scope.AgreeOn.define h name v)
      · exact .none
  | inner s c ih =>
    cases d with
    | root => exact h.elim
    | inner t d =>
      obtain ⟨hscope, houter⟩ := h
      rw [assign?, assign?, hscope name hname]
      split
      · exact .some ⟨hscope.define name v, houter⟩
      · have hrel := ih houter
        cases hc : c.assign? name v <;> cases hd : d.assign? name v <;> rw [hc, hd] at hrel <;>
          cases hrel
        · exact .none
        · next hagree => exact .some ⟨hscope, hagree⟩

/-- Binding another name leaves the names alone that chains are to agree on. -/
theorem of_define {name : String} (hname : ¬P name) (c : Chain) (v : Value) :
    c.AgreeOn P (c.define name v) := by
  cases c with
  | root s => exact Scope.AgreeOn.of_define hname s v
  | inner s outer => exact ⟨.of_define hname s v, .refl outer⟩

/-- Assigning another name leaves the names alone that chains are to agree on. -/
theorem of_assign {name : String} (hname : ¬P name) {v : Value} {c d : Chain}
    (h : c.assign? name v = some d) : c.AgreeOn P d := by
  induction c generalizing d with
  | root s =>
    obtain ⟨-, hd⟩ := Option.ite_none_right_eq_some.1 h
    cases hd
    exact Scope.AgreeOn.of_define hname s v
  | inner s outer ih =>
    rw [assign?] at h
    split at h
    · cases h
      exact ⟨.of_define hname s v, .refl outer⟩
    · obtain ⟨outer', houter, rfl⟩ := Option.map_eq_some_iff.1 h
      exact ⟨.refl s, ih houter⟩

end AgreeOn

end Chain

/-! ## Names that are not written -/

/-- An execution that writes only names that do not matter leaves a chain that agrees with the one before
it. -/
theorem Frame.agreeOn (P : String → Prop) :
    Frame (fun t => ¬P t.lexeme) fun _ m n => m.chain.AgreeOn P n.chain where
  refl m := .refl m.chain
  trans := .trans
  mono _ h := h
  assign {name} hname v m := by
    rw [assignVariable]
    split
    · next h => exact .of_assign hname h
    · exact .refl m.chain
  print v m := by
    rw [Machine.print]
    split <;> exact .refl m.chain
  define hname v m := .of_define hname m.chain v
  scope := .leave

/-- Statements in a row that write no name of some leave a chain that agrees on them with the one before. -/
theorem Stmt.execAll_unwritten {body : List Stmt} (h : ∀ s ∈ body, ∀ t ∈ s.targets, ¬P t.lexeme)
    (rounds : Nat) (m : Machine) : m.chain.AgreeOn P (Stmt.execAll rounds body m).2.chain :=
  (Frame.agreeOn P).execAll rounds h m

/-! ## Names that are looked up -/

/-- Chains that agree on a name give the same answer when it is read and when it is assigned. -/
theorem Tracks.agreeOn (move : Nat → Nat) (P : String → Prop) :
    Tracks move (Token.reline move) (fun t => P t.lexeme) (Chain.AgreeOn P) where
  read := by
    intro t c c' ht hc
    rw [readVariable, readVariable, Token.reline_lexeme, hc.get?_eq ht]
    cases c.get? t.lexeme <;> rfl
  assign := by
    intro t c c' v ht hc
    have hrel := hc.assign ht v
    rw [assignVariable, assignVariable, Token.reline_lexeme]
    cases hassign : c.assign? t.lexeme v <;> cases hassign' : c'.assign? t.lexeme v <;>
      rw [hassign, hassign'] at hrel <;> cases hrel
    · exact ⟨rfl, hc⟩
    · next hagree => exact ⟨rfl, hagree⟩

/-- A program is executed in step on chains that agree on its names, also with its lines moved. -/
theorem Stmt.execAll_agreeOn (move : Nat → Nat) {body : List Stmt}
    (hnames : ∀ s ∈ body, ∀ t ∈ s.names, P t.lexeme) (rounds : Nat) {m m' : Machine}
    (hm : Beside (Chain.AgreeOn P) m m') :
    RunStep move (Chain.AgreeOn P) (Stmt.execAll rounds body m)
      (Stmt.execAll rounds (body.map (Stmt.reline move)) m') := by
  refine execAll_step (fun s hs => ?_) hm
  refine Stmt.exec_step (Tracks.agreeOn move P) s (hnames s hs) ?_ rounds
  exact fun t _ v c c' hc => hc.define t.lexeme v

/-- On sinks that take everything, such executions end alike and print the same. -/
theorem Stmt.exists_execAll_agreeOn (move : Nat → Nat) {body : List Stmt}
    (hnames : ∀ s ∈ body, ∀ t ∈ s.names, P t.lexeme) (rounds : Nat) {c c' : Chain}
    (hc : c.AgreeOn P c') :
    ∃ completion d d' printed, d.AgreeOn P d' ∧ ∀ sink : Sink, sink.Reliable →
      Stmt.execAll rounds body ⟨c, sink⟩ = (completion, ⟨d, sink.append printed⟩) ∧
        Stmt.execAll rounds (body.map (Stmt.reline move)) ⟨c', sink⟩ =
          (completion.reline move, ⟨d', sink.append printed⟩) := by
  obtain ⟨completion, d, printed, -, hrun⟩ := Stmt.execAll_appends rounds body c
  obtain ⟨completion', d', printed', -, hrun'⟩ :=
    Stmt.execAll_appends rounds (body.map (Stmt.reline move)) c'
  -- Executions in step share their sink, and on an empty one what they print is what it holds then.
  have hm : Beside (Chain.AgreeOn P) ⟨c, .unlimited⟩ ⟨c', .unlimited⟩ := ⟨hc, rfl⟩
  have hstep := Stmt.execAll_agreeOn move hnames rounds hm
  rw [hrun _ Sink.reliable_unlimited, hrun' _ Sink.reliable_unlimited] at hstep
  obtain ⟨hcompletion, hd, hsink⟩ := hstep
  have hprinted : printed' = printed := by
    have hheld := congrArg Sink.held hsink
    simpa only [Sink.append, Sink.unlimited, ByteArray.empty_append] using hheld
  dsimp only at hcompletion
  subst hcompletion hprinted
  exact ⟨completion, d, d', printed', hd, fun sink hsink => ⟨hrun sink hsink, hrun' sink hsink⟩⟩

end

end LoxLang
