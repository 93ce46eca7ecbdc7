import LoxLang.Proofs.Parse.Progress
import LoxLang.Proofs.Parse.Recovery

/-!
# Braces and recovery

A block is opened by taking a brace and closed by taking another one; a block that is not closed is a fault,
which is reported once. Everything else takes no braces, except for recovery, which passes over braces as over
any other token. So along every walk the braces are in balance with the faults: what is opened and not closed
is a block with a fault, or was passed over (`Keeps`). There is one rule for each combinator and one theorem for
each walker.

For a program whose braces are in balance, this says when a missing brace is reported at all: if recovery passes
over more closing braces than opening ones (`Parse.program_braceAfterBlock_iff`).
-/

namespace LoxLang

/-! ## Depth -/

/-- What a token adds to the depth of braces. -/
def Kind.brace : Kind → Int
  | .leftBrace => 1
  | .rightBrace => -1
  | _ => 0

/-- A token that is no brace adds nothing to the depth. -/
theorem Kind.brace_eq_zero {kind : Kind} (hleft : kind ≠ .leftBrace) (hright : kind ≠ .rightBrace) :
    kind.brace = 0 := by
  cases kind <;> first | rfl | contradiction

/-- How many more braces are opened than closed. -/
def depth : List Token → Int
  | [] => 0
  | t :: tokens => t.kind.brace + depth tokens

/-- No tokens have no depth. -/
theorem depth_nil : depth [] = 0 :=
  rfl

/-- A token before others adds its own part to their depth. -/
theorem depth_cons (t : Token) (tokens : List Token) :
    depth (t :: tokens) = t.kind.brace + depth tokens :=
  rfl

/-- The depths of two lists in a row add up. -/
theorem depth_append (tokens more : List Token) : depth (tokens ++ more) = depth tokens + depth more := by
  induction tokens with
  | nil => rw [List.nil_append, depth_nil, Int.zero_add]
  | cons t tokens ih => rw [List.cons_append, depth_cons, depth_cons, ih, Int.add_assoc]

/-- The depth of tokens is the difference of their left and their right braces. -/
theorem depth_eq_countP (tokens : List Token) :
    depth tokens = tokens.countP (·.kind = .leftBrace) - tokens.countP (·.kind = .rightBrace) := by
  induction tokens with
  | nil => rfl
  | cons t rest ih =>
    rw [depth_cons, ih, List.countP_cons, List.countP_cons]
    cases ht : t.kind <;> simp [Kind.brace] <;> omega

/-- Behind the next token, the depth of what was taken has changed by that of the token. -/
theorem Faces.depth_take {tokens rest : List Token} {current : Nat} {stop t : Token}
    (h : Faces tokens current stop (t :: rest)) :
    depth (tokens.take (current + 1)) = depth (tokens.take current) + t.kind.brace := by
  rw [List.take_add_one, h.getElem?_eq, depth_append, Option.toList_some, depth_cons, depth_nil,
    Int.add_zero]

/-! ## The balance of a walk -/

/-- A fault of a block that is not closed. -/
def ParseFault.lacksBrace (fault : ParseFault) : Bool :=
  fault.cause = .braceAfterBlock

/-- The faults of a walk, the one it stops with included. -/
def Landing.faults {α : Type} (r : Landing α) : List ParseFault :=
  match r.result with
  | .ok _ => r.reports
  | .error fault => r.reports ++ [fault]

namespace Walker

/-- The tokens that a recovery passed over. -/
def stretch (tokens : List Token) (recovery : Nat × Nat) : List Token :=
  (tokens.take recovery.2).drop recovery.1

section
variable {α β : Type} {tokens ahead : List Token} {current : Nat} {stop : Token} {offset : Int}

/-- Between two places in a list, the depth changes by that of the tokens between them. -/
theorem depth_stretch {before after : Nat} (h : before ≤ after) :
    depth (tokens.take after) = depth (tokens.take before) + depth (stretch tokens (before, after)) := by
  have hsplit := List.take_append_drop before (tokens.take after)
  rw [List.take_take, Nat.min_eq_left h] at hsplit
  rw [stretch, ← depth_append, hsplit]

/-- A walk leaves the cursor before the same end, and the braces in balance: with `offset` blocks open when it
began, those it opened and did not close have a fault or were passed over. -/
structure KeepsAt (offset : Int) (tokens : List Token) (current : Nat) (stop : Token) (r : Landing α) :
    Prop where
  faces : ∃ left, Faces tokens r.current stop left
  balance : depth (tokens.take r.current) + offset = depth (tokens.take current) +
    depth (r.recoveries.flatMap (stretch tokens)) + r.faults.countP ParseFault.lacksBrace

/-- All walks of a walker keep the balance. -/
def Keeps (offset : Int) (w : Walker α) : Prop :=
  ∀ ⦃tokens current stop ahead r⦄, Faces tokens current stop ahead → w tokens current = .ok r →
    KeepsAt offset tokens current stop r

/-- Two walkers in a row break off where the first one does. -/
theorem bind_of_breach {w : Walker α} {f : α → Walker β} {breach : Breach}
    (h : w tokens current = .error breach) : (w >>= f) tokens current = .error breach := by
  show andThen w f tokens current = _
  simp only [andThen, h]

/-- Two walkers in a row break off where the second one does. -/
theorem bind_of_breach_after {w : Walker α} {f : α → Walker β} {a : α} {reports : List ParseFault}
    {recoveries : List (Nat × Nat)} {after : Nat} {breach : Breach}
    (h : w tokens current = .ok ⟨.ok a, reports, recoveries, after⟩)
    (hf : f a tokens after = .error breach) : (w >>= f) tokens current = .error breach := by
  show andThen w f tokens current = _
  simp only [andThen, h, hf]

/-- A walk of two walkers in a row ends in the first one, or goes on with the second. -/
theorem bind_eq_ok {w : Walker α} {f : α → Walker β} {r : Landing β}
    (h : (w >>= f) tokens current = .ok r) :
    (∃ fault reports recoveries after, w tokens current = .ok ⟨.error fault, reports, recoveries, after⟩ ∧
      r = ⟨.error fault, reports, recoveries, after⟩) ∨
    ∃ a reports recoveries after second, w tokens current = .ok ⟨.ok a, reports, recoveries, after⟩ ∧
      f a tokens after = .ok second ∧
      r = ⟨second.result, reports ++ second.reports, recoveries ++ second.recoveries, second.current⟩ := by
  rcases hw : w tokens current with breach | ⟨fault | a, reports, recoveries, after⟩
  · rw [bind_of_breach hw] at h
    cases h
  · rw [bind_of_fault hw] at h
    cases h
    exact .inl ⟨fault, reports, recoveries, after, rfl, rfl⟩
  · rcases hf : f a tokens after with breach | second
    · rw [bind_of_breach_after hw hf] at h
      cases h
    · rw [bind_of_ok hw hf] at h
      cases h
      exact .inr ⟨a, reports, recoveries, after, second, rfl, hf, rfl⟩

/-- The faults of two walkers in a row are the reports of the first and the faults of the second. -/
theorem faults_append (second : Landing β) (reports : List ParseFault) (recoveries : List (Nat × Nat)) :
    (⟨second.result, reports ++ second.reports, recoveries, second.current⟩ : Landing β).faults =
      reports ++ second.faults := by
  rcases second with ⟨fault | b, reports', recoveries', after⟩ <;> simp [Landing.faults]

/-- The balances of two walks in a row add up. -/
theorem KeepsAt.trans {offset' : Int} {a : α} {reports : List ParseFault} {recoveries : List (Nat × Nat)}
    {after : Nat} {second : Landing β}
    (h : KeepsAt offset tokens current stop (⟨.ok a, reports, recoveries, after⟩ : Landing α))
    (h' : KeepsAt offset' tokens after stop second) :
    KeepsAt (offset + offset') tokens current stop (⟨second.result, reports ++ second.reports,
      recoveries ++ second.recoveries, second.current⟩ : Landing β) where
  faces := h'.faces
  balance := by
    have hfirst := h.balance
    have hsecond := h'.balance
    rw [faults_append, List.flatMap_append, depth_append, List.countP_append]
    simp only [Landing.faults] at hfirst
    dsimp only
    omega

/-- The rule for two walkers in a row: the blocks that are open belong to the first one. -/
theorem Keeps.bind {w : Walker α} {f : α → Walker β} (h : Keeps offset w) (hf : ∀ a, Keeps 0 (f a)) :
    Keeps offset (w >>= f) := by
  intro tokens current stop ahead r hfaces hr
  obtain ⟨fault, reports, recoveries, after, hw, rfl⟩ |
    ⟨a, reports, recoveries, after, second, hw, hsecond, rfl⟩ := bind_eq_ok hr
  · exact ⟨(h hfaces hw).faces, (h hfaces hw).balance⟩
  · obtain ⟨left, hleft⟩ := (h hfaces hw).faces
    have hkeeps := (h hfaces hw).trans (hf a hleft hsecond)
    rwa [Int.add_zero] at hkeeps

/-! ## Single tokens -/

/-- A walker that does not move and finds no fault. -/
theorem keeps_of_silent {w : Walker α}
    (h : ∀ {tokens current stop ahead}, Faces tokens current stop ahead →
      ∃ a, w tokens current = .ok ⟨.ok a, [], [], current⟩) : Keeps 0 w := by
  intro tokens current stop ahead r hfaces hr
  obtain ⟨a, ha⟩ := h hfaces
  rw [ha] at hr
  cases hr
  exact ⟨⟨ahead, hfaces⟩, by simp [Landing.faults, depth_nil]⟩

/-- A result of its own keeps the balance. -/
theorem keeps_pure (a : α) : Keeps 0 (pure a : Walker α) :=
  keeps_of_silent fun _ => ⟨a, rfl⟩

/-- Peeking keeps the balance. -/
theorem keeps_peek : Keeps 0 peek :=
  keeps_of_silent fun hfaces => ⟨_, peek_of_faces hfaces⟩

/-- Looking at the previous token keeps the balance. -/
theorem keeps_previous : Keeps 0 previous :=
  keeps_of_silent fun hfaces => previous_of_le hfaces.length_pos hfaces.current_le

/-- Asking for a kind keeps the balance. -/
theorem keeps_check (kind : Kind) : Keeps 0 (check kind) :=
  keeps_of_silent fun hfaces => ⟨_, check_of_faces kind hfaces⟩

/-- A fault keeps the balance unless it is that of a block. -/
theorem keeps_fail {cause : ParseCause} (hcause : cause ≠ .braceAfterBlock) :
    Keeps 0 (fail (α := α) cause) := by
  intro tokens current stop ahead r hfaces hr
  rw [fail_of_faces cause hfaces] at hr
  cases hr
  exact ⟨⟨ahead, hfaces⟩, by simp [Landing.faults, ParseFault.lacksBrace, hcause, depth_nil]⟩

/-- A report keeps the balance unless it is that of a block. -/
theorem keeps_report {fault : ParseFault} (hcause : fault.cause ≠ .braceAfterBlock) :
    Keeps 0 (report fault) := by
  intro tokens current stop ahead r hfaces hr
  cases hr
  exact ⟨⟨ahead, hfaces⟩, by simp [Landing.faults, ParseFault.lacksBrace, hcause, depth_nil]⟩

/-- A walk behind a token of which the walker knows what it adds to the depth. -/
theorem KeepsAt.taken {r : Landing α} {t : Token} {rest : List Token}
    (hfaces : Faces tokens current stop (t :: rest)) (ht : t.kind.brace = offset)
    (h : KeepsAt offset tokens (current + 1) stop r) : KeepsAt 0 tokens current stop r where
  faces := h.faces
  balance := by
    have hbalance := h.balance
    rw [hfaces.depth_take] at hbalance
    omega

/-- The rule for a choice: behind a brace, the walker has to account for it. -/
theorem keeps_ifTakes {kinds : List Kind} {yes no : Walker α}
    (hkinds : ∀ kind ∈ kinds, kind.brace = offset) (hyes : Keeps offset yes) (hno : Keeps 0 no) :
    Keeps 0 (ifTakes kinds yes no) := by
  intro tokens current stop ahead r hfaces hr
  cases ahead with
  | nil =>
    rw [ifTakes_of_nil kinds yes no hfaces] at hr
    exact hno hfaces hr
  | cons t rest =>
    rw [ifTakes_of_cons kinds yes no hfaces] at hr
    split at hr
    · next hkind => exact (hyes hfaces.next hr).taken hfaces (hkinds t.kind hkind)
    · exact hno hfaces hr

/-- A token that has to be there: if it is not, the fault accounts for what was open. -/
theorem keeps_consume {kind : Kind} {cause : ParseCause} (hkind : kind.brace = -offset)
    (hcause : (if cause = .braceAfterBlock then 1 else 0) = offset) : Keeps offset (consume kind cause) := by
  have hfault : ∀ {tokens current stop ahead t}, Faces tokens current stop ahead →
      KeepsAt offset tokens current stop (⟨.error ⟨cause, t⟩, [], [], current⟩ : Landing Token) := by
    intro tokens current stop ahead t hfaces
    refine ⟨⟨ahead, hfaces⟩, ?_⟩
    rw [← hcause]
    by_cases hbrace : cause = .braceAfterBlock <;>
      simp [Landing.faults, ParseFault.lacksBrace, hbrace, depth_nil]
  intro tokens current stop ahead r hfaces hr
  cases ahead with
  | nil =>
    rw [consume_of_nil kind cause hfaces] at hr
    cases hr
    exact hfault hfaces
  | cons t rest =>
    rw [consume_of_cons kind cause hfaces] at hr
    split at hr <;> cases hr
    · next ht =>
      refine ⟨⟨rest, hfaces.next⟩, ?_⟩
      simp only [hfaces.depth_take, ht, hkind, Landing.faults, List.flatMap_nil, depth_nil,
        List.countP_nil]
      omega
    · exact hfault hfaces

/-! ## Expressions -/

/-- A walk that breaks off keeps the balance, since it comes to no end. -/
theorem keeps_breakOff (breach : Breach) : Keeps offset (breakOff (α := α) breach) :=
  fun _ _ _ _ _ _ hr => nomatch hr

/-- A loop keeps the balance if each of its rounds does. -/
theorem keeps_loop {σ : Type} {round : σ → Walker (σ ⊕ β)} (h : ∀ state, Keeps 0 (round state))
    (bound : Nat) (state : σ) : Keeps 0 (loop round bound state) := by
  induction bound generalizing state with
  | zero => exact keeps_breakOff .unfinished
  | succ bound ih =>
    refine (h state).bind fun next => ?_
    cases next with
    | inl state => exact ih state
    | inr answer => exact keeps_pure answer

/-- A primary keeps the balance. The brackets that it takes are no braces. -/
theorem primary_keeps {inner : Walker Expr} (h : Keeps 0 inner) : Keeps 0 (primary inner) := by
  have hclose : Keeps 0 (consume .rightParen .parenAfterExpression) := keeps_consume rfl rfl
  refine keeps_ifTakes (by decide) (keeps_pure _) <| keeps_ifTakes (by decide) (keeps_pure _) <|
    keeps_ifTakes (by decide) (keeps_pure _) <|
    keeps_ifTakes (by decide) (keeps_previous.bind fun _ => keeps_pure _) <|
    keeps_ifTakes (by decide) (keeps_previous.bind fun _ => keeps_pure _) <|
    keeps_ifTakes (by decide) (h.bind fun _ => hclose.bind fun _ => keeps_pure _) <|
    keeps_fail (by decide)

/-- A row of unary operators keeps the balance if its operand does. -/
theorem unary_keeps {primary : Walker Expr} (h : Keeps 0 primary) (bound : Nat) :
    Keeps 0 (unary primary bound) := by
  induction bound with
  | zero => exact keeps_breakOff .unfinished
  | succ bound ih =>
    exact keeps_ifTakes (by decide) (keeps_previous.bind fun _ => ih.bind fun _ => keeps_pure _) h

/-- The levels of infix operators keep the balance if the tightest operand does, since no operator is a brace. -/
theorem infixes_keeps {tightest : Walker Expr} (h : Keeps 0 tightest) (bound : Nat)
    {levels : List Parser.Level} (hlevels : ∀ level ∈ levels, ∀ kind ∈ level.operators, kind.brace = 0) :
    Keeps 0 (infixes bound tightest levels) := by
  induction levels with
  | nil => exact h
  | cons level tighter ih =>
    obtain ⟨hlevel, htighter⟩ := List.forall_mem_cons.1 hlevels
    have hoperand := ih htighter
    refine hoperand.bind fun left => keeps_loop (fun left => ?_) bound left
    exact keeps_ifTakes hlevel
      (keeps_previous.bind fun _ => hoperand.bind fun _ => keeps_pure _) (keeps_pure _)

/-- An assignment keeps the balance if its target and its value do. -/
theorem assignment_keeps {target inner : Walker Expr} (htarget : Keeps 0 target)
    (hinner : Keeps 0 inner) : Keeps 0 (assignment target inner) := by
  have hequal : ∀ kind ∈ [Kind.equal], kind.brace = 0 := by decide
  refine htarget.bind fun left => keeps_ifTakes hequal ?_ (keeps_pure left)
  refine keeps_previous.bind fun equals => hinner.bind fun value => ?_
  cases left with
  | read name => exact keeps_pure _
  | _ => exact (keeps_report (by simp)).bind fun _ => keeps_pure value

/-- An expression keeps the balance. -/
theorem expression_keeps (bound : Nat) : Keeps 0 (expression bound) := by
  induction bound with
  | zero => exact keeps_breakOff .unfinished
  | succ bound ih =>
    have hlevels : ∀ level ∈ Parser.levels, ∀ kind ∈ level.operators, kind.brace = 0 := by
      simp only [Parser.levels, List.forall_mem_cons]
      decide
    exact assignment_keeps (infixes_keeps (unary_keeps (primary_keeps ih) _) _ hlevels) ih

end

/-! ## Recovery and rows of declarations -/

section
variable {α : Type} {tokens ahead : List Token} {current bound : Nat} {stop : Token}

/-- Recovery moves the cursor on, and does nothing else. -/
theorem loop_synchronizeRound_of_ok {r : Landing Unit} (hfaces : Faces tokens current stop ahead)
    (hr : loop synchronizeRound bound () tokens current = .ok r) :
    current ≤ r.current ∧ (∃ left, Faces tokens r.current stop left) ∧ r = ⟨.ok (), [], [], r.current⟩ := by
  induction bound generalizing current ahead with
  | zero => cases hr
  | succ bound ih =>
    rw [loop] at hr
    cases ahead with
    | nil =>
      rw [bind_of_silent (synchronizeRound_of_nil hfaces)] at hr
      cases hr
      exact ⟨Nat.le_refl _, ⟨[], hfaces⟩, rfl⟩
    | cons t rest =>
      obtain ⟨before, hbefore⟩ := previous_of_le hfaces.length_pos hfaces.current_le
      have hround := synchronizeRound_of_cons hbefore hfaces
      split at hround <;> rw [bind_of_silent hround] at hr
      · cases hr
        exact ⟨Nat.le_refl _, ⟨t :: rest, hfaces⟩, rfl⟩
      · obtain ⟨hle, hleft, heq⟩ := ih hfaces.next hr
        exact ⟨Nat.le_of_succ_le hle, hleft, heq⟩

/-- Recovery moves the cursor on to a place before the same end, and reports nothing of its own. -/
theorem synchronize_of_ok {r : Landing Unit} (hfaces : Faces tokens current stop ahead)
    (hr : synchronize bound tokens current = .ok r) :
    current ≤ r.current ∧ (∃ left, Faces tokens r.current stop left) ∧ r = ⟨.ok (), [], [], r.current⟩ := by
  rw [synchronize, bind_of_silent (peek_of_faces hfaces)] at hr
  cases ahead with
  | nil =>
    obtain ⟨t, hadvance⟩ := advance_of_nil hfaces
    rw [bind_of_silent hadvance] at hr
    exact loop_synchronizeRound_of_ok hfaces hr
  | cons t rest =>
    rw [bind_of_silent (advance_of_cons hfaces)] at hr
    obtain ⟨hle, hleft, heq⟩ := loop_synchronizeRound_of_ok hfaces.next hr
    exact ⟨Nat.le_of_succ_le hle, hleft, heq⟩

/-- Recovery accounts for what it passes over; the fault it reports was there before. -/
theorem recover_of_ok {fault : ParseFault} {r : Landing Unit} (hfaces : Faces tokens current stop ahead)
    (hr : recover bound fault tokens current = .ok r) :
    current ≤ r.current ∧ (∃ left, Faces tokens r.current stop left) ∧
      r = ⟨.ok (), [fault], [(current, r.current)], r.current⟩ := by
  obtain ⟨_, _, _, _, hreport, -⟩ | ⟨_, _, _, _, second, hreport, hsecond, rfl⟩ := bind_eq_ok hr <;>
    cases hreport
  rw [bind_of_silent (w := position) rfl] at hsecond
  rcases hsync : synchronize bound tokens current with breach | landed
  · rw [bind_of_breach hsync] at hsecond
    cases hsecond
  · obtain ⟨hle, hleft, heq⟩ := synchronize_of_ok hfaces hsync
    rw [heq] at hsync
    rw [bind_of_silent hsync] at hsecond
    cases hsecond
    exact ⟨hle, hleft, rfl⟩

/-- A walker that is recovered from answers in any case. -/
theorem recovering_keeps {w : Walker α} (h : Keeps 0 w) {r : Landing (Option α)}
    (hfaces : Faces tokens current stop ahead) (hr : recovering bound w tokens current = .ok r) :
    KeepsAt 0 tokens current stop r ∧ ∃ o, r.result = .ok o := by
  rcases hw : w tokens current with breach | ⟨fault | a, reports, recoveries, after⟩
  · have hattempt : attempt w tokens current = .error breach := by simp only [attempt, hw, Except.map]
    rw [recovering, bind_of_breach hattempt] at hr
    cases hr
  · obtain ⟨left, hleft⟩ := (h hfaces hw).faces
    have hbalance := (h hfaces hw).balance
    rcases hrecover : recover bound fault tokens after with breach | landed
    · have hsettle : settle (α := α) bound (.error fault) tokens after = .error breach :=
        bind_of_breach hrecover
      rw [recovering, bind_of_breach_after (attempt_of_ok hw) hsettle] at hr
      cases hr
    · obtain ⟨hle, hfaces', heq⟩ := recover_of_ok hleft hrecover
      rw [heq] at hrecover
      rw [recovering_of_fault hw hrecover] at hr
      cases hr
      refine ⟨⟨hfaces', ?_⟩, none, rfl⟩
      have hstretch : depth (tokens.take landed.current) = _ := depth_stretch hle
      simp only [Landing.faults, List.flatMap_append, List.flatMap_cons, List.flatMap_nil,
        List.append_nil, depth_append] at hbalance ⊢
      dsimp only at hstretch
      omega
  · rw [recovering_of_ok hw] at hr
    cases hr
    exact ⟨⟨(h hfaces hw).faces, (h hfaces hw).balance⟩, some a, rfl⟩

/-- The loop over declarations answers in any case, and ends where it is closed. -/
theorem row_keeps {closed : Walker Bool} {closing : List Kind} {one : Walker (Option Stmt)}
    (hclosed : Closes closed closing)
    (hone : ∀ {tokens current stop ahead r}, Faces tokens current stop ahead →
      one tokens current = .ok r → KeepsAt 0 tokens current stop r ∧ ∃ o, r.result = .ok o)
    {found : List Stmt} {r : Landing (List Stmt)} (hfaces : Faces tokens current stop ahead)
    (hr : loop (rowRound closed one) bound found tokens current = .ok r) :
    KeepsAt 0 tokens current stop r ∧ (∃ trees, r.result = .ok trees) ∧
      ∃ left, Faces tokens r.current stop left ∧ (left.head?.map Token.kind).all (· ∈ closing) := by
  induction bound generalizing current ahead found r with
  | zero => cases hr
  | succ bound ih =>
    have hend := hclosed.of_faces hfaces
    cases hdone : (ahead.head?.map Token.kind).all (· ∈ closing) <;> rw [hdone] at hend
    case true =>
      rw [loop_rowRound_of_closed hend] at hr
      exact ⟨keeps_pure found hfaces hr, by cases hr; exact ⟨found, rfl⟩,
        by cases hr; exact ⟨ahead, hfaces, hdone⟩⟩
    case false =>
      rw [loop_rowRound_of_open hend] at hr
      obtain ⟨_, _, _, _, hfirst, -⟩ | ⟨first, _, _, after, second, hfirst, hsecond, rfl⟩ := bind_eq_ok hr
      · obtain ⟨o, ho⟩ := (hone hfaces hfirst).2
        cases ho
      · have hkeeps := (hone hfaces hfirst).1
        obtain ⟨left, hleft⟩ := hkeeps.faces
        obtain ⟨hothers, htrees, hlast⟩ := ih hleft hsecond
        exact ⟨hkeeps.trans hothers, htrees, hlast⟩

end

/-! ## Statements -/

section
variable {bound : Nat} {inner : Walker Stmt}

/-- An expression statement keeps the balance. -/
theorem expressionStatement_keeps (bound : Nat) : Keeps 0 (expressionStatement bound) :=
  (expression_keeps bound).bind fun _ => Keeps.bind (keeps_consume rfl rfl) fun _ => keeps_pure _

/-- A print statement keeps the balance. -/
theorem printStatement_keeps (bound : Nat) : Keeps 0 (printStatement bound) :=
  (expression_keeps bound).bind fun _ => Keeps.bind (keeps_consume rfl rfl) fun _ => keeps_pure _

/-- A declaration of a variable keeps the balance. -/
theorem varDeclaration_keeps (bound : Nat) : Keeps 0 (varDeclaration bound) := by
  have hinitial : Keeps 0 (initializer? bound) :=
    keeps_ifTakes (by decide) ((expression_keeps bound).bind fun _ => keeps_pure _) (keeps_pure _)
  exact Keeps.bind (keeps_consume rfl rfl) fun _ => hinitial.bind fun _ =>
    Keeps.bind (keeps_consume rfl rfl) fun _ => keeps_pure _

/-- An expression that may be missing keeps the balance. -/
theorem optionalExpression_keeps (bound : Nat) (close : Kind) :
    Keeps 0 (optionalExpression bound close) := by
  refine (keeps_check close).bind fun closed => ?_
  cases closed with
  | true => exact keeps_pure none
  | false => exact (expression_keeps bound).bind fun _ => keeps_pure _

/-- The first clause of a `for` statement keeps the balance. -/
theorem forInitial_keeps (bound : Nat) : Keeps 0 (forInitial bound) :=
  keeps_ifTakes (by decide) (keeps_pure none) <|
    keeps_ifTakes (by decide) ((varDeclaration_keeps bound).bind fun _ => keeps_pure _) <|
    (expressionStatement_keeps bound).bind fun _ => keeps_pure _

/-- A `for` statement keeps the balance if its body does. -/
theorem forStatement_keeps (h : Keeps 0 inner) : Keeps 0 (forStatement bound inner) :=
  Keeps.bind (keeps_consume rfl rfl) fun _ => (forInitial_keeps bound).bind fun _ =>
    (optionalExpression_keeps bound _).bind fun _ => Keeps.bind (keeps_consume rfl rfl) fun _ =>
      (optionalExpression_keeps bound _).bind fun _ => Keeps.bind (keeps_consume rfl rfl) fun _ =>
        h.bind fun _ => keeps_pure _

/-- An `if` statement keeps the balance if its branches do. -/
theorem ifStatement_keeps (h : Keeps 0 inner) : Keeps 0 (ifStatement bound inner) :=
  Keeps.bind (keeps_consume rfl rfl) fun _ => (expression_keeps bound).bind fun _ =>
    Keeps.bind (keeps_consume rfl rfl) fun _ => h.bind fun _ =>
      keeps_ifTakes (by decide) (h.bind fun _ => keeps_pure _) (keeps_pure _)

/-- A `while` statement keeps the balance if its body does. -/
theorem whileStatement_keeps (h : Keeps 0 inner) : Keeps 0 (whileStatement bound inner) :=
  Keeps.bind (keeps_consume rfl rfl) fun _ => (expression_keeps bound).bind fun _ =>
    Keeps.bind (keeps_consume rfl rfl) fun _ => h.bind fun _ => keeps_pure _

/-- What is run before recovery, if there is any. -/
theorem declaration_keeps (h : Keeps 0 inner) {tokens ahead : List Token} {current : Nat} {stop : Token}
    {r : Landing (Option Stmt)} (hfaces : Faces tokens current stop ahead)
    (hr : declaration bound inner tokens current = .ok r) :
    KeepsAt 0 tokens current stop r ∧ ∃ o, r.result = .ok o :=
  recovering_keeps (keeps_ifTakes (by decide) (varDeclaration_keeps bound) h) hfaces hr

/-- A block accounts for the brace before it: it takes another one, or lacks it. -/
theorem block_keeps (h : Keeps 0 inner) : Keeps 1 (block bound inner) := by
  intro tokens current stop ahead r hfaces hr
  obtain ⟨_, _, _, _, hrow, -⟩ | ⟨body, _, _, after, second, hrow, hsecond, rfl⟩ := bind_eq_ok hr
  · obtain ⟨-, ⟨trees, htrees⟩, -⟩ := row_keeps isAtBrace_closes (declaration_keeps h) hfaces hrow
    cases htrees
  · obtain ⟨hkeeps, -, left, hleft, -⟩ := row_keeps isAtBrace_closes (declaration_keeps h) hfaces hrow
    have hclose : Keeps 1 (consume .rightBrace .braceAfterBlock) := keeps_consume rfl rfl
    exact hkeeps.trans ((hclose.bind fun _ => keeps_pure _) hleft hsecond)

/-- A statement keeps the balance: the brace that a block is opened by is taken before the walker of blocks is
called, and owed to it. -/
theorem statement_keeps (bound : Nat) : Keeps 0 (statement bound) := by
  induction bound with
  | zero => exact keeps_breakOff .unfinished
  | succ bound ih =>
    exact keeps_peek.bind fun _ =>
      keeps_ifTakes (by decide) (forStatement_keeps ih) <|
      keeps_ifTakes (by decide) (ifStatement_keeps ih) <|
      keeps_ifTakes (by decide) (whileStatement_keeps ih) <|
      keeps_ifTakes (by decide) (block_keeps ih) <|
      keeps_ifTakes (by decide) (printStatement_keeps bound) (expressionStatement_keeps (bound + 1))

end

/-- At the end, all braces of the body are behind the cursor. -/
theorem depth_take_of_atEnd {body : List Token} {mark : Token} {current : Nat}
    (hbody : ∀ t ∈ body, t.kind ≠ .eof) (hmark : mark.kind = .eof)
    (h : Faces (body ++ [mark]) current mark []) : depth ((body ++ [mark]).take current) = depth body := by
  have hle : body.length ≤ current := by
    rcases h.at_end with ⟨hcurrent, -⟩ | ⟨hget, -⟩
    · rw [hcurrent, List.length_append]
      exact Nat.le_add_right _ _
    · refine Nat.le_of_not_lt fun hlt => hbody mark ?_ hmark
      rw [List.getElem?_append_left hlt] at hget
      exact List.mem_of_getElem? hget
  have hrest : depth ([mark].take (current - body.length)) = 0 := by
    cases current - body.length with
    | zero => rfl
    | succ n => rw [List.take_succ_cons, List.take_nil, depth_cons, hmark]; rfl
  rw [List.take_append, List.take_of_length_le hle, depth_append, hrest, Int.add_zero]

/-- The balance of a whole program. -/
theorem program_keeps {body : List Token} {mark : Token} {bound start : Nat} {r : Landing (List Stmt)}
    (hbody : ∀ t ∈ body, t.kind ≠ .eof) (hmark : mark.kind = .eof)
    (hr : program bound (body ++ [mark]) start = .ok r) :
    depth body = depth (r.recoveries.flatMap (stretch (body ++ [mark]))) +
      r.faults.countP ParseFault.lacksBrace := by
  have hfaces := Faces.of_ofTokens? (Stream.ofTokens?_append_mark hbody hmark)
  rw [program_eq_loop hfaces.length_pos] at hr
  obtain ⟨hkeeps, -, left, hleft, hclosed⟩ :=
    row_keeps isAtEnd_closes (declaration_keeps (statement_keeps bound)) hfaces hr
  have hnil : left = [] := by
    cases left with
    | nil => rfl
    | cons t rest => simp at hclosed
  have hbalance := hkeeps.balance
  rw [hnil] at hleft
  rw [depth_take_of_atEnd hbody hmark hleft, List.take_zero, depth_nil] at hbalance
  omega

end Walker

/-! ## Programs -/

/-- Whether braces close each other, with the given number of them open. -/
def nestedFrom : Nat → List Token → Bool
  | opened, [] => opened = 0
  | opened, t :: rest =>
    match t.kind, opened with
    | .leftBrace, _ => nestedFrom (opened + 1) rest
    | .rightBrace, 0 => false
    | .rightBrace, opened + 1 => nestedFrom opened rest
    | _, _ => nestedFrom opened rest

/-- Braces that close each other are in balance. -/
theorem depth_of_nestedFrom {opened : Nat} {tokens : List Token} (h : nestedFrom opened tokens) :
    opened + depth tokens = 0 := by
  fun_induction nestedFrom opened tokens with
  | case1 opened => simpa [depth_nil] using h
  | case2 opened t rest ht ih =>
    have hrest := ih h
    rw [depth_cons, ht, Kind.brace]
    omega
  | case3 => cases h
  | case4 t rest opened ht ih =>
    have hrest := ih h
    rw [depth_cons, ht, Kind.brace]
    omega
  | case5 opened t rest hleft hzero hsucc ih =>
    have hright : t.kind ≠ .rightBrace := by
      intro ht
      cases opened with
      | zero => exact hzero ht rfl
      | succ opened => exact hsucc opened ht rfl
    rw [depth_cons, Kind.brace_eq_zero hleft hright, Int.zero_add]
    exact ih h

namespace Parser

/-- A block is read, or lacks its closing brace. -/
theorem block_result (bound : Nat) (inner : Parser Stmt) (stop : Token) (tokens : List Token) :
    (∃ body, (block bound inner stop tokens).result = .ok (.block body)) ∨
      ∃ t, (block bound inner stop tokens).result = .error ⟨.braceAfterBlock, t⟩ := by
  obtain ⟨body, hbody⟩ := total_declarations [.rightBrace] (declaration bound inner) bound stop tokens
  rcases hrow : declarations [.rightBrace] (declaration bound inner) bound stop tokens with
    ⟨result, reports, rest⟩
  rw [hrow] at hbody
  obtain rfl : result = .ok body := hbody
  rw [block, bind_of_ok hrow]
  cases rest with
  | nil => exact .inr ⟨stop, rfl⟩
  | cons t rest =>
    by_cases ht : t.kind = .rightBrace
    · have hexpect : expect .rightBrace .braceAfterBlock stop (t :: rest) = ⟨.ok t, [], rest⟩ := if_pos ht
      exact .inl ⟨body, by rw [bind_of_ok hexpect]; rfl⟩
    · have hexpect : expect .rightBrace .braceAfterBlock stop (t :: rest) =
        ⟨.error ⟨.braceAfterBlock, t⟩, [], t :: rest⟩ := if_neg ht
      exact .inr ⟨t, by rw [bind_of_error hexpect]⟩

/-- Behind a brace, a declaration is a block. -/
theorem declaration_of_leftBrace (size : Nat) (stop : Token) {t : Token} (ht : t.kind = .leftBrace)
    (rest : List Token) :
    declaration (size + 1) (statement (size + 1)) stop (t :: rest) =
      block size (statement size) stop rest := by
  rw [declaration, peekKind?_bind, List.head?_cons, Option.map_some, ht]
  dsimp only
  rw [statement, peekKind?_bind, List.head?_cons, Option.map_some, ht]
  rfl

end Parser

namespace Parse

/-- The tokens that recovery passes over while a program is read. -/
def passedOver (tokens : List Token) : List Token :=
  match Walker.program (tokens.length + 1) tokens 0 with
  | .ok r => r.recoveries.flatMap (Walker.stretch tokens)
  | .error _ => []

/-- The braces of a program are in balance with those that recovery passes over and those that are reported
to be missing. -/
theorem depth_eq_passedOver_add {body : List Token} {mark : Token} (hbody : ∀ t ∈ body, t.kind ≠ .eof)
    (hmark : mark.kind = .eof) :
    depth body = depth (passedOver (body ++ [mark])) +
      (program (body ++ [mark])).2.countP ParseFault.lacksBrace := by
  have hstream := Stream.ofTokens?_append_mark hbody hmark
  obtain ⟨recoveries, current, -, hwalk⟩ :=
    Walker.program_of_ofTokens? hstream (Nat.lt_succ_self _) 0
  have hkeeps := Walker.program_keeps hbody hmark hwalk
  rw [passedOver, hwalk]
  exact hkeeps

/-- A program begins with its first declaration, read or recovered from. -/
theorem program_of_first {tokens left : List Token} {stream : Stream} {first : Option Stmt}
    {reports : List ParseFault} {size : Nat} (hstream : Stream.ofTokens? tokens = some stream)
    (hsize : stream.body.length ≤ size) (hne : stream.body ≠ [])
    (hfirst : Parser.recovering (Parser.declaration size (Parser.statement size)) stream.stop stream.body =
      ⟨.ok first, reports, left⟩) :
    ∃ others reports', program tokens = (first.toList ++ others, reports ++ reports') := by
  have hless := Walker.length_recovering_lt
    (Parser.declaration_statement_local hsize hsize stream.body (Nat.le_refl _)) hne stream.stop
  rw [hfirst] at hless
  obtain ⟨others, reports', hrow⟩ :=
    Parser.exists_row stream.stop (Nat.le_trans (Nat.le_of_lt hless) hsize)
  exact ⟨others, reports', program_eq_of_row hstream hsize (.cons hless hfirst hrow)⟩

/-- A program that begins with a brace begins with a block, unless a brace is reported to be missing. -/
theorem exists_block_of_leftBrace {tokens rest : List Token} {stop t : Token}
    (hstream : Stream.ofTokens? tokens = some ⟨t :: rest, stop⟩) (ht : t.kind = .leftBrace)
    (hreports : ∀ fault ∈ (program tokens).2, fault.cause ≠ .braceAfterBlock) :
    ∃ inner others, (program tokens).1 = .block inner :: others := by
  have hblock := Parser.declaration_of_leftBrace rest.length stop ht rest
  have hresult := Parser.block_result rest.length (Parser.statement rest.length) stop rest
  rcases houtcome : Parser.block rest.length (Parser.statement rest.length) stop rest with
    ⟨fault | s, reports, left⟩ <;> rw [houtcome] at hblock hresult
  · obtain ⟨others, reports', heq⟩ := program_of_first hstream (Nat.le_refl _) (List.cons_ne_nil t rest)
      (Parser.recovering_of_error hblock)
    obtain ⟨_, ⟨⟩⟩ | ⟨blamed, ⟨⟩⟩ := hresult
    rw [heq] at hreports
    exact absurd rfl (hreports ⟨.braceAfterBlock, blamed⟩ (by simp))
  · obtain ⟨others, reports', heq⟩ := program_of_first hstream (Nat.le_refl _) (List.cons_ne_nil t rest)
      (Parser.recovering_of_ok hblock)
    obtain ⟨inner, ⟨⟩⟩ | ⟨_, ⟨⟩⟩ := hresult
    rw [heq]
    exact ⟨inner, others, rfl⟩

/-- For a program whose braces close each other, no brace is reported to be missing exactly if recovery passes
over as many opening braces as closing ones. If none is, the block that the program begins with is read,
whatever stands in it. -/
theorem program_braceAfterBlock_iff {body : List Token} {mark : Token}
    (hbody : ∀ t ∈ body, t.kind ≠ .eof) (hmark : mark.kind = .eof) (hnested : nestedFrom 0 body) :
    ((∀ fault ∈ (program (body ++ [mark])).2, fault.cause ≠ .braceAfterBlock) ↔
      (passedOver (body ++ [mark])).countP (·.kind = .leftBrace) =
        (passedOver (body ++ [mark])).countP (·.kind = .rightBrace)) ∧
    ((∀ fault ∈ (program (body ++ [mark])).2, fault.cause ≠ .braceAfterBlock) →
      body.head?.map Token.kind = some .leftBrace →
        ∃ inner others, (program (body ++ [mark])).1 = .block inner :: others) := by
  constructor
  · have hbalance := depth_eq_passedOver_add hbody hmark
    have hdepth := depth_of_nestedFrom hnested
    have hreports : (∀ fault ∈ (program (body ++ [mark])).2, fault.cause ≠ .braceAfterBlock) ↔
        (program (body ++ [mark])).2.countP ParseFault.lacksBrace = 0 := by
      simp [List.countP_eq_zero, ParseFault.lacksBrace]
    rw [depth_eq_countP (passedOver _)] at hbalance
    rw [hreports]
    omega
  · intro hreports hhead
    obtain ⟨t, rest, rfl, ht⟩ := Parser.head?_kind_eq_some_iff.1 hhead
    exact exists_block_of_leftBrace (Stream.ofTokens?_append_mark hbody hmark) ht hreports

/-- The tokens of a block that holds a name, and of one that holds a semicolon. -/
def twoBlocks : List Token :=
  [onLineOne .leftBrace "\x7b", onLineOne .identifier "a", onLineOne .rightBrace "\x7d",
    onLineOne .leftBrace "\x7b", onLineOne .semicolon ";", onLineOne .rightBrace "\x7d"]

/-- Recovery from the first block passes over the end of it and the beginning of the second, whose end then
closes it. -/
theorem program_braceAfterBlock_twoBlocks :
    nestedFrom 0 twoBlocks ∧ passedOver (twoBlocks ++ [Item.endMark 1]) = (twoBlocks.drop 2).take 3 ∧
      (∀ fault ∈ (program (twoBlocks ++ [Item.endMark 1])).2, fault.cause ≠ .braceAfterBlock) ∧
      ∃ inner others, (program (twoBlocks ++ [Item.endMark 1])).1 = .block inner :: others := by
  have hbody : ∀ t ∈ twoBlocks, t.kind ≠ .eof := by decide
  have hmark : (Item.endMark 1).kind = .eof := rfl
  have hnested : nestedFrom 0 twoBlocks := by decide
  have hpassed : passedOver (twoBlocks ++ [Item.endMark 1]) = (twoBlocks.drop 2).take 3 := by
    decide +kernel
  obtain ⟨hiff, hblock⟩ := program_braceAfterBlock_iff hbody hmark hnested
  have hreports := hiff.2 (by rw [hpassed]; decide)
  exact ⟨hnested, hpassed, hreports, hblock hreports rfl⟩

/-- In a block that holds a name alone, the closing brace is passed over, and reported to be missing. -/
theorem program_braceAfterBlock_passedBrace :
    ¬ ∀ (body : List Token) (mark : Token), (∀ t ∈ body, t.kind ≠ .eof) → mark.kind = .eof →
      nestedFrom 0 body → ∀ fault ∈ (program (body ++ [mark])).2, fault.cause ≠ .braceAfterBlock := by
  intro h
  have hreports := h (twoBlocks.take 3) (Item.endMark 1) (by decide) rfl (by decide)
  exact absurd rfl (hreports ⟨.braceAfterBlock, Item.endMark 1⟩ (by decide))

end Parse

end LoxLang
