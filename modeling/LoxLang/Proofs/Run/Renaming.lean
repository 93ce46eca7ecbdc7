import LoxLang.Proofs.Parse.Regular
import LoxLang.Proofs.Run.Lockstep

/-!
# Renaming a variable of a block

The name of a variable that is declared in a block can be changed to one that does not occur in the block.
`Stmt.rename x y` is what this does to the statements behind the declaration: reads and assignments of `x`
become ones of `y`, and so do declarations of `x` in the same list. In a nested block the change ends
behind a declaration of `x` there, whose initial value is still evaluated outside of it.
`exec_rename` says that the block is then executed as before, on every machine.

The two executions keep step in a relation of chains. In the block itself the scopes bind the same values,
that of `x` now under `y` (`Renamed`). In a nested block the innermost scopes are the same ones, and they
bind neither of the names (`Scope.Lacks`) until `x` is declared there, and `x` afterwards (`Scope.Binds`).
What is tracked around a scope is tracked in it (`Tracks.lacks`, `Tracks.shadowed`), so `rename_step` is an
induction over statements for every relation that tracks the renamed variables.
-/

namespace LoxLang

/-! ## Renamed trees -/

/-- The token with the name `y` if it had the name `x`. -/
def Token.rename (x y : String) (t : Token) : Token :=
  if t.lexeme = x then { t with lexeme := y } else t

/-- A token with another name stays as it is. -/
theorem Token.rename_of_ne {x : String} (y : String) {t : Token} (h : t.lexeme ≠ x) :
    t.rename x y = t :=
  if_neg h

/-- A token with the old name has the new one. -/
theorem Token.lexeme_rename_of_eq {x : String} (y : String) {t : Token} (h : t.lexeme = x) :
    (t.rename x y).lexeme = y := by
  rw [Token.rename, if_pos h]

/-- The expression with reads and assignments of `y` in place of those of `x`. -/
def Expr.rename (x y : String) (e : Expr) : Expr :=
  e.relabel id (Token.rename x y)

namespace Stmt

/-- Whether a statement is a declaration of the name. -/
def declares (x : String) : Stmt → Bool
  | declare name _ => name.lexeme = x
  | _ => false

/-- A statement that declares a name is a declaration with that name. -/
theorem declares_iff {x : String} {s : Stmt} :
    s.declares x ↔ ∃ name initial, s = declare name initial ∧ name.lexeme = x := by
  cases s <;> simp [declares]

/-- The declaration with its initial value renamed. -/
def renameInitial (x y : String) : Stmt → Stmt
  | declare name initial => declare name (initial.map (Expr.rename x y))
  | s => s

mutual

/-- The statement with `y` for what refers to `x` in the scope that it is executed in. -/
def rename (x y : String) : Stmt → Stmt
  | expression e => expression (e.rename x y)
  | print e => print (e.rename x y)
  | declare name initial => declare (name.rename x y) (initial.map (Expr.rename x y))
  | block body => block (renameNested x y body)
  | ifThen condition yes => ifThen (condition.rename x y) (yes.rename x y)
  | ifThenElse condition yes no =>
    ifThenElse (condition.rename x y) (yes.rename x y) (no.rename x y)
  | whileLoop condition body => whileLoop (condition.rename x y) (body.rename x y)

/-- The body of a nested block, renamed up to its own declaration of `x`. -/
def renameNested (x y : String) : List Stmt → List Stmt
  | [] => []
  | s :: rest =>
    if s.declares x then s.renameInitial x y :: rest else s.rename x y :: renameNested x y rest

end

/-- The body of a block with the variable renamed that is declared in it behind `before`. -/
def renameDeclared (before : List Stmt) (name : Token) (initial : Option Expr) (behind : List Stmt)
    (y : String) : List Stmt :=
  before ++ declare { name with lexeme := y } initial :: behind.map (rename name.lexeme y)

/-- The statement is the other one or stands in it. -/
inductive Within (s : Stmt) : Stmt → Prop where
  | self : Within s s
  | block {t : Stmt} {body : List Stmt} : t ∈ body → Within s t → Within s (.block body)
  | ifThen {condition : Expr} {yes : Stmt} : Within s yes → Within s (.ifThen condition yes)
  | ifYes {condition : Expr} {yes no : Stmt} : Within s yes → Within s (.ifThenElse condition yes no)
  | ifNo {condition : Expr} {yes no : Stmt} : Within s no → Within s (.ifThenElse condition yes no)
  | whileLoop {condition : Expr} {body : Stmt} : Within s body → Within s (.whileLoop condition body)

/-- What stands in a regular statement is regular. -/
theorem Regular.of_within {S : Token → Prop} {s t : Stmt} (h : s.Within t) (ht : t.Regular S) :
    s.Regular S := by
  induction h with
  | self => exact ht
  | block hmem _ ih =>
    cases ht with
    | block hbody => exact ih (hbody _ hmem)
  | ifThen _ ih =>
    cases ht with
    | ifThen _ hyes _ => exact ih hyes
  | ifYes _ ih =>
    cases ht with
    | ifThenElse _ hyes _ _ _ => exact ih hyes
  | ifNo _ ih =>
    cases ht with
    | ifThenElse _ _ _ hno _ => exact ih hno
  | whileLoop _ ih =>
    cases ht with
    | whileLoop _ hbody _ => exact ih hbody

end Stmt

/-! ## Nested scopes -/

section
variable {x y : String} {P : Token → Prop} {R : Chain → Chain → Prop}

/-- The scope binds neither of the names. -/
def Scope.Lacks (x y : String) (scope : Scope) : Prop :=
  scope.get? x = none ∧ scope.get? y = none

/-- The scope binds the name. -/
def Scope.Binds (x : String) (scope : Scope) : Prop :=
  (scope.get? x).isSome

/-- A scope that lacks two names still does when a third one is bound. -/
theorem Scope.Lacks.define {scope : Scope} (h : scope.Lacks x y) {n : String} (hx : n ≠ x) (hy : n ≠ y)
    (v : Value) : (scope.define n v).Lacks x y := by
  rw [Scope.Lacks, scope.get?_define_of_ne hx.symm, scope.get?_define_of_ne hy.symm]
  exact h

/-- A name that is bound in a scope is none of those that the scope lacks. -/
theorem Scope.Lacks.ne_of_isSome {scope : Scope} (h : scope.Lacks x y) {n : String}
    (hn : (scope.get? n).isSome) : n ≠ x ∧ n ≠ y := by
  constructor
  · rintro rfl
    rw [h.1] at hn
    cases hn
  · rintro rfl
    rw [h.2] at hn
    cases hn

/-- A scope binds what is defined in it. -/
theorem Scope.binds_define_self (scope : Scope) (x : String) (v : Value) :
    (scope.define x v).Binds x := by
  rw [Scope.Binds, scope.get?_define_self]
  rfl

/-- A scope that binds a name still does when any name is bound. -/
theorem Scope.Binds.define {scope : Scope} (h : scope.Binds x) (n : String) (v : Value) :
    (scope.define n v).Binds x := by
  by_cases hn : x = n
  · rw [hn]
    exact scope.binds_define_self n v
  · rw [Scope.Binds, scope.get?_define_of_ne hn]
    exact h

/-- Before the name is declared in a nested block, its variable is still looked up around the block. -/
theorem Tracks.lacks (h : Tracks id (Token.rename x y) P R) :
    Tracks id (Token.rename x y) P (Inside (Scope.Lacks x y) R) := by
  refine h.inside ?_ ?_ ?_
  · intro scope t hscope _ hbound
    rw [Token.rename_of_ne y (hscope.ne_of_isSome hbound).1]
  · intro scope t hscope _ hget
    refine ⟨rfl, ?_⟩
    by_cases ht : t.lexeme = x
    · rw [Token.lexeme_rename_of_eq y ht, hscope.2]
    · rw [Token.rename_of_ne y ht, hget]
  · intro scope n v hscope hbound
    obtain ⟨hx, hy⟩ := hscope.ne_of_isSome hbound
    exact hscope.define hx hy v

/-- Once the name is declared in a nested block, it is not looked up around the block any more. -/
theorem Tracks.shadowed (h : Tracks id (Token.rename x y) P R) :
    Tracks id (Token.reline id) P (Inside (Scope.Binds x) R) := by
  refine h.inside (fun _ _ _ => rfl) ?_ fun v hscope _ => hscope.define _ v
  intro scope t hscope _ hget
  have hne : t.lexeme ≠ x := by
    rintro rfl
    rw [Scope.Binds, hget] at hscope
    cases hscope
  rw [Token.rename_of_ne y hne]
  exact ⟨rfl, hget⟩

/-! ## Statements behind the declaration -/

/-- The body of a nested block, which the renaming may end in. Its executions keep step as far as the
chains around it are concerned. -/
theorem nested_step (h : Tracks id (Token.rename x y) (fun t => t.lexeme ≠ y) R) {rounds : Nat}
    {body : List Stmt} (hnames : ∀ s ∈ body, ∀ t ∈ s.names, t.lexeme ≠ y)
    (hbody : ∀ s ∈ body, s.isDeclare = false →
      InStep id (Inside (Scope.Lacks x y) R) rounds s (s.rename x y))
    {m m' : Machine} (hm : Beside (Inside (Scope.Lacks x y) R) m m') :
    RunStep id (fun c c' => R c.leave c'.leave) (Stmt.execAll rounds body m)
      (Stmt.execAll rounds (Stmt.renameNested x y body) m') := by
  induction body generalizing m m' with
  | nil => exact ⟨rfl, hm.mono Inside.leave⟩
  | cons s rest ih =>
    obtain ⟨hsnames, hrestnames⟩ := List.forall_mem_cons.1 hnames
    obtain ⟨hs, hrest⟩ := List.forall_mem_cons.1 hbody
    rw [Stmt.renameNested]
    by_cases hx : s.declares x
    · -- The initial value is still looked up around the block, and what follows it is not renamed.
      obtain ⟨t, initial, rfl, rfl⟩ := Stmt.declares_iff.1 hx
      rw [if_pos hx]
      refine declareThen_step h.lacks Inside.leave hsnames (fun v n n' hn => ?_) hm
      have hshadowed := hn.1.define fun {scope} _ => scope.binds_define_self t.lexeme v
      refine RunStep.mono Inside.leave (execAll_inside_step h.shadowed ?_ hrestnames rounds ?_)
      · exact fun n w hscope => hscope.define n w
      · exact ⟨hshadowed, hn.2⟩
    · have hstep : InStep id (Inside (Scope.Lacks x y) R) rounds s (s.rename x y) := by
        cases s with
        | declare t initial =>
          have ht : t.lexeme ≠ x := by
            intro heq
            exact hx (Stmt.declares_iff.2 ⟨t, initial, rfl, heq⟩)
          have hty : t.lexeme ≠ y := hsnames t (Stmt.declared_subset_names _ List.mem_cons_self)
          rw [Stmt.rename, Token.rename_of_ne y ht]
          exact .declare h.lacks hsnames fun v _ _ hc => hc.define fun hscope => hscope.define ht hty v
        | _ => exact hs rfl
      rw [if_neg hx, Stmt.execAll_cons, Stmt.execAll_cons]
      exact (hstep m m' hm).andThen Inside.leave (ih hrestnames hrest)

/-- A regular statement that is no declaration and its renaming keep step wherever the variable is tracked
under its new name. -/
theorem rename_step {S : Token → Prop} {s : Stmt} (hregular : s.Regular S) (hs : s.isDeclare = false)
    (h : Tracks id (Token.rename x y) (fun t => t.lexeme ≠ y) R)
    (hnames : ∀ t ∈ s.names, t.lexeme ≠ y) (rounds : Nat) :
    InStep id R rounds s (s.rename x y) := by
  induction hregular generalizing R with
  | expression => exact .expression h hnames
  | print => exact .print h hnames
  | declare => cases hs
  | @block body _ ih =>
    have hbodynames : ∀ s ∈ body, ∀ t ∈ s.names, t.lexeme ≠ y := by
      intro s hs t ht
      exact hnames t (Stmt.names_subset_block hs ht)
    have hbody : ∀ s ∈ body, s.isDeclare = false →
        InStep id (Inside (Scope.Lacks x y) R) rounds s (s.rename x y) :=
      fun s hs hdeclare => ih s hs hdeclare h.lacks (hbodynames s hs)
    rw [Stmt.rename]
    exact .block id fun m m' hm => nested_step h hbodynames hbody ⟨.enter ⟨rfl, rfl⟩ hm.1, hm.2⟩
  | ifThen _ _ hyes ih =>
    obtain ⟨hcnames, hyesnames⟩ := List.forall_mem_append.1 hnames
    exact .ifThen h hcnames (ih hyes h hyesnames)
  | ifThenElse _ _ hyes _ hno ihyes ihno =>
    obtain ⟨hboth, hnonames⟩ := List.forall_mem_append.1 hnames
    obtain ⟨hcnames, hyesnames⟩ := List.forall_mem_append.1 hboth
    exact .ifThenElse h hcnames (ihyes hyes h hyesnames) (ihno hno h hnonames)
  | whileLoop _ _ hbody ih =>
    obtain ⟨hcnames, hbodynames⟩ := List.forall_mem_append.1 hnames
    exact .whileLoop h hcnames (ih hbody h hbodynames)

end

/-! ## The block itself -/

section
variable {x y : String}

/-- Behind the declaration, the scopes of the block bind the same values, that of `x` in the first under
`y` in the second, and they are in the same place. The second may also bind `x`, if the block declared it
before; no renamed statement looks there. -/
def Renamed (x y : String) (c c' : Chain) : Prop :=
  ∃ scope scope' outer, c = .inner scope outer ∧ c' = .inner scope' outer ∧
    (scope.get? x).isSome ∧ scope'.get? y = scope.get? x ∧
    ∀ n, n ≠ x → n ≠ y → scope'.get? n = scope.get? n

/-- Outside of the block the two chains are the same. -/
theorem Renamed.leave {c c' : Chain} (h : Renamed x y c c') : c'.leave = c.leave := by
  obtain ⟨scope, scope', outer, rfl, rfl, -⟩ := h
  rfl

/-- Declaring the variable, or declaring it once more. -/
theorem Renamed.define_self {scope scope' : Scope} (outer : Chain) (v : Value)
    (h : ∀ n, n ≠ x → n ≠ y → scope'.get? n = scope.get? n) :
    Renamed x y (.inner (scope.define x v) outer) (.inner (scope'.define y v) outer) := by
  refine ⟨scope.define x v, scope'.define y v, outer, rfl, rfl, ?_, ?_, fun n hx hy => ?_⟩
  · exact scope.binds_define_self x v
  · rw [scope.get?_define_self, scope'.get?_define_self]
  · rw [scope.get?_define_of_ne hx, scope'.get?_define_of_ne hy, h n hx hy]

/-- Declaring another variable. -/
theorem Renamed.define {n : String} (hx : n ≠ x) (hy : n ≠ y) (v : Value) {c c' : Chain}
    (h : Renamed x y c c') : Renamed x y (c.define n v) (c'.define n v) := by
  obtain ⟨scope, scope', outer, rfl, rfl, hsome, hself, hother⟩ := h
  refine ⟨scope.define n v, scope'.define n v, outer, rfl, rfl, ?_, ?_, fun k hkx hky => ?_⟩
  · exact Scope.Binds.define hsome n v
  · rw [scope'.get?_define_of_ne hy.symm, scope.get?_define_of_ne hx.symm, hself]
  · by_cases hk : k = n
    · rw [hk, scope.get?_define_self, scope'.get?_define_self]
    · rw [scope.get?_define_of_ne hk, scope'.get?_define_of_ne hk, hother k hkx hky]

/-- Other variables are read and assigned in the same place, and the renamed one in the block's scope. -/
theorem Renamed.tracks : Tracks id (Token.rename x y) (fun t => t.lexeme ≠ y) (Renamed x y) where
  read := by
    rintro t _ _ hy ⟨scope, scope', outer, rfl, rfl, hsome, hself, hother⟩
    rw [Evaluated.reline_id, readVariable_inner, readVariable_inner]
    by_cases hx : t.lexeme = x
    · obtain ⟨v, hv⟩ := Option.isSome_iff_exists.1 hsome
      rw [Token.lexeme_rename_of_eq y hx, hself, hx, hv]
    · rw [Token.rename_of_ne y hx, hother t.lexeme hx hy]
  assign := by
    rintro t _ _ v hy ⟨scope, scope', outer, rfl, rfl, hsome, hself, hother⟩
    by_cases hx : t.lexeme = x
    · have hbound : (scope.get? t.lexeme).isSome := by rwa [hx]
      have hbound' : (scope'.get? (t.rename x y).lexeme).isSome := by
        rwa [Token.lexeme_rename_of_eq y hx, hself]
      rw [assignVariable_inner_of_bound hbound, assignVariable_inner_of_bound hbound',
        Token.lexeme_rename_of_eq y hx, hx]
      exact ⟨rfl, .define_self outer v hother⟩
    · rw [Token.rename_of_ne y hx]
      cases hget : scope.get? t.lexeme with
      | some w =>
        have hbound := Option.isSome_of_eq_some hget
        have hbound' : (scope'.get? t.lexeme).isSome := by rwa [hother t.lexeme hx hy]
        have hscopes : Renamed x y (.inner scope outer) (.inner scope' outer) :=
          ⟨scope, scope', outer, rfl, rfl, hsome, hself, hother⟩
        rw [assignVariable_inner_of_bound hbound, assignVariable_inner_of_bound hbound']
        exact ⟨rfl, hscopes.define hx hy v⟩
      | none =>
        have hget' : scope'.get? t.lexeme = none := by rw [hother t.lexeme hx hy, hget]
        rw [assignVariable_inner_of_free hget, assignVariable_inner_of_free hget']
        exact ⟨(Evaluated.reline_id _).symm, scope, scope', _, rfl, rfl, hsome, hself, hother⟩

/-- Every statement of the block behind the declaration, declarations included, keeps step with its
renaming. -/
theorem Renamed.inStep {S : Token → Prop} {s : Stmt} (hregular : s.Regular S)
    (hnames : ∀ t ∈ s.names, t.lexeme ≠ y) (rounds : Nat) :
    InStep id (Renamed x y) rounds s (s.rename x y) := by
  cases s with
  | declare t initial =>
    have hy : t.lexeme ≠ y := hnames t (Stmt.declared_subset_names _ List.mem_cons_self)
    rw [Stmt.rename]
    refine .declare tracks hnames fun v c c' hc => ?_
    by_cases hx : t.lexeme = x
    · obtain ⟨scope, scope', outer, rfl, rfl, -, -, hother⟩ := hc
      rw [Token.lexeme_rename_of_eq y hx, hx]
      exact .define_self outer v hother
    · rw [Token.rename_of_ne y hx]
      exact hc.define hx hy v
  | _ => exact rename_step hregular rfl tracks hnames rounds

/-- The body of the block. Up to the declaration the two machines are the same, and the block's own scope
is the innermost one of both. -/
theorem renameDeclared_step {S : Token → Prop} {before behind : List Stmt} {name : Token}
    {initial : Option Expr} (hregular : ∀ s ∈ behind, s.Regular S)
    (hnames : ∀ s ∈ behind, ∀ t ∈ s.names, t.lexeme ≠ y) (rounds : Nat) {m m' : Machine}
    (hm : Beside (Inside (fun _ => True) Eq) m m') :
    RunStep id (fun c c' => c.leave = c'.leave)
      (Stmt.execAll rounds (before ++ .declare name initial :: behind) m)
      (Stmt.execAll rounds (Stmt.renameDeclared before name initial behind y) m') := by
  have hsame : Tracks id (Token.reline id) (fun _ => True) (Inside (fun _ => True) Eq) :=
    (Tracks.eq id).insideAny
  have hinitial : initial.map (Expr.relabel id (Token.reline id)) = initial := by
    rw [show Expr.relabel id (Token.reline id) = id from funext Expr.reline_id, Option.map_id]
    rfl
  have hbehind (v : Value) {n n' : Machine} (hn : Beside (Inside (fun _ => True) Eq) n n') :
      RunStep id (fun c c' => c.leave = c'.leave)
        (Stmt.execAll rounds behind (n.define name v))
        (Stmt.execAll rounds (behind.map (Stmt.rename name.lexeme y))
          (n'.define { name with lexeme := y } v)) := by
    obtain ⟨⟨scope, outer, _, hchain, hchain', -, rfl⟩, hsink⟩ := hn
    have hrenamed : Renamed name.lexeme y (n.chain.define name.lexeme v) (n'.chain.define y v) := by
      rw [hchain, hchain']
      exact .define_self outer v fun _ _ _ => rfl
    have hbeside : Beside (Renamed name.lexeme y) (n.define name v)
        (n'.define { name with lexeme := y } v) := ⟨hrenamed, hsink⟩
    have hstep := execAll_step (fun s hs => Renamed.inStep (hregular s hs) (hnames s hs) rounds) hbeside
    exact hstep.mono fun hc => hc.leave.symm
  rw [Stmt.renameDeclared, Stmt.execAll_append_andThen, Stmt.execAll_append_andThen]
  refine (execAll_inside_step hsame (fun _ _ _ => trivial) (fun _ _ _ _ => trivial) rounds hm).andThen
    Inside.leave fun {n n'} hn => ?_
  have hstep : RunStep id (fun c c' => c.leave = c'.leave)
      (Stmt.execAll rounds (.declare name initial :: behind) n)
      (Stmt.execAll rounds (.declare { name with lexeme := y }
        (initial.map (Expr.relabel id (Token.reline id))) ::
          behind.map (Stmt.rename name.lexeme y)) n') :=
    declareThen_step hsame Inside.leave (fun _ _ => trivial) hbehind hn
  rwa [hinitial] at hstep

end

/-- Lexical scoping: a variable that is declared in a block of a program can be given any name that does
not occur in the block. From every machine the renamed block prints the same bytes, ends the same way, at
the same line if it is at a fault, and leaves the same values in every scope around it. Neither what was
reported about the program nor what the block declares before the variable matters. -/
theorem exec_rename {tokens : List Token} {tree : Stmt} {before behind : List Stmt} {name : Token}
    {initial : Option Expr} {y : String} (htree : tree ∈ (Parse.program tokens).1)
    (hblock : (Stmt.block (before ++ .declare name initial :: behind)).Within tree)
    (hy : ∀ t ∈ (Stmt.block (before ++ .declare name initial :: behind)).names, t.lexeme ≠ y)
    (rounds : Nat) (m : Machine) :
    (Stmt.block (Stmt.renameDeclared before name initial behind y)).exec rounds m =
      (Stmt.block (before ++ .declare name initial :: behind)).exec rounds m := by
  have hregular := Stmt.Regular.of_within hblock (Parse.program_regular tokens tree htree)
  cases hregular with
  | block hbody =>
    have hbehind : ∀ s ∈ behind, s ∈ before ++ .declare name initial :: behind := by
      intro s hs
      exact List.mem_append_right _ (List.mem_cons_of_mem _ hs)
    have hnames : ∀ s ∈ behind, ∀ t ∈ s.names, t.lexeme ≠ y := by
      intro s hs t ht
      exact hy t (Stmt.names_subset_block (hbehind s hs) ht)
    have hstep : InStep id Eq rounds (.block (before ++ .declare name initial :: behind))
        (.block (Stmt.renameDeclared before name initial behind y)) :=
      .block id fun n n' hn => renameDeclared_step (fun s hs => hbody s (hbehind s hs)) hnames rounds
        ⟨.enter trivial hn.1, hn.2⟩
    have heq := (hstep m m ⟨rfl, rfl⟩).eq
    rwa [Completion.reline_id] at heq

/-- The body of `{ var x = true; { print x; var a = x; print a; } }` on one line. -/
def shadowing (x : String) : List Stmt :=
  let name (lexeme : String) : Token := ⟨.identifier, lexeme, none, 1⟩
  [.declare (name x) (some (.literal (.bool true))),
    .block [.print (.read (name x)), .declare (name "a") (some (.read (name x))),
      .print (.read (name "a"))]]

/-- The tokens of the block with `a` for its variable, and the mark of the end. -/
def shadowingTokens : List Token :=
  [(.leftBrace, "\x7b"), (.varWord, "var"), (.identifier, "a"), (.equal, "="), (.trueWord, "true"),
    (.semicolon, ";"), (.leftBrace, "\x7b"), (.printWord, "print"), (.identifier, "a"),
    (.semicolon, ";"), (.varWord, "var"), (.identifier, "a"), (.equal, "="), (.identifier, "a"),
    (.semicolon, ";"), (.printWord, "print"), (.identifier, "a"), (.semicolon, ";"),
    (.rightBrace, "\x7d"), (.rightBrace, "\x7d"), (.eof, "")].map fun (kind, lexeme) =>
      ⟨kind, lexeme, none, 1⟩

/-- The nested block is renamed up to the initial value of its own variable. -/
theorem exec_rename_shadowing :
    Parse.program shadowingTokens = ([.block (shadowing "a")], []) ∧
      (Stmt.block (shadowing "b")).exec 1 ⟨.root .empty, .unlimited⟩ =
        (Stmt.block (shadowing "a")).exec 1 ⟨.root .empty, .unlimited⟩ := by
  have hprogram : Parse.program shadowingTokens = ([.block (shadowing "a")], []) := rfl
  have htree : Stmt.block (shadowing "a") ∈ (Parse.program shadowingTokens).1 := by
    rw [hprogram]
    exact List.mem_singleton_self _
  have hnames : ∀ t ∈ (Stmt.block (shadowing "a")).names, t.lexeme ≠ "b" := by decide
  exact ⟨hprogram, @exec_rename _ _ [] _ _ _ _ htree .self hnames 1 ⟨.root .empty, .unlimited⟩⟩

end LoxLang
