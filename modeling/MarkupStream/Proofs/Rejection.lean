import MarkupStream.Proofs.WellNested

/-!
The nesting as an automaton. It changes its state as it goes: it takes elements off the stack, and adds
events to a queue and warnings to a list, one after another. What it has changed stays changed if it fails
later on. It never does: a close tag is rejected before anything is touched, so that a run goes on as if
the tag had not been there.
-/
namespace MarkupStream

/-- An open element, and the index of the one around it. -/
structure Link where
  name : Span
  parent : Option Nat
  deriving DecidableEq, Repr

/-- The open elements, innermost first, the greatest depth so far, and the events and the warnings that have
been given. -/
structure Balancer where
  input : Bytes
  dialect : Dialect
  policy : Policy
  stack : List Link
  maxDepth : Nat
  queue : List Event
  warnings : List Warning
  deriving Repr

namespace Balancer

def ofInput (input : Bytes) (dialect : Dialect) (policy : Policy) : Balancer :=
  ⟨input, dialect, policy, [], 0, [], []⟩

/-- An open element with its name. -/
def frame (b : Balancer) (link : Link) : Frame := ⟨link.name, link.name.slice b.input⟩

def frames (b : Balancer) : List Frame := b.stack.map b.frame

/-- The nesting, as far as it can be looked at without being changed. -/
def nesting (b : Balancer) : Nesting := ⟨b.input, b.dialect, b.policy, b.frames, b.maxDepth⟩

/-- A part of the program. Whatever it has done to the state before it fails is done. -/
abbrev Action (α : Type) := ExceptT ParseError (StateM Balancer) α

def perform (action : Action α) (b : Balancer) : Except ParseError α × Balancer := action.run.run b

section Program

open Nesting

def emit (events : List Event) : Action Unit :=
  modify fun b => { b with queue := b.queue ++ events }

def warn (kind : WarningKind) (name : Span) (position : Position) : Action Unit :=
  modify fun b =>
    { b with warnings := b.warnings ++ [⟨kind, Utf8.decodeLossy (name.slice b.input), position⟩] }

def push (name : Span) : Action Unit :=
  modify fun b =>
    { b with stack := ⟨name, if b.stack.isEmpty then none else some (b.stack.length - 1)⟩ :: b.stack }

def pop : Action Unit := modify fun b => { b with stack := b.stack.tail }

/-- Takes notice of the depth that one more element has. -/
def deepen : Action Unit :=
  modify fun b => { b with maxDepth := max b.maxDepth (b.stack.length + 1) }

/-- Warns about each of some elements. -/
def warnAll (kind : WarningKind) (position : Position) : List Link → Action Unit
  | [] => pure ()
  | link :: outer => do
    warn kind link.name position
    warnAll kind position outer

/-- Closes so many elements by implication, innermost first. -/
def autoClose (offset : Nat) : Nat → Action Unit
  | 0 => pure ()
  | count + 1 => do
    match (← get).stack with
    | [] => pure ()
    | link :: _ =>
      pop
      emit [.element .autoCloseStart (Span.empty offset) link.name]
      emit [.element .autoCloseEnd (Span.empty offset) link.name]
      autoClose offset count

/-- An open tag, and the name of a raw text element that it opens. -/
def openTag (tag : OpenTag) : Action (Option Span) := do
  let b ← get
  let spec := b.nesting.spec? (tag.name.slice b.input)
  autoClose tag.start.start (b.nesting.impliedCount spec)
  deepen
  if tag.selfClosing || spec.any (·.void) then
    emit (openEvents tag .standaloneStart (.standaloneEnd tag.selfClosing))
    return none
  else
    emit (openEvents tag .openStart .openEnd)
    push tag.name
    return if spec.any (·.rawText) then some tag.name else none

/-- Whether a close tag ends an element; if so, those inside it have been closed. -/
def matchClose (locate : Nat → Position) (tag : CloseTag) : Action Bool := do
  let b ← get
  let name := tag.name.slice b.input
  let offset := tag.start.start
  match b.nesting.innerCount? name, b.policy with
  | some 0, _ => return true
  | some count, .autoClose =>
    if b.dialect.isStrict then warnAll .autoClosed (locate offset) (b.stack.take count)
    autoClose offset count
    return true
  | _, .requireBalanced => throw (.unbalancedClose (Utf8.decodeLossy name) (locate offset))
  | _, _ => return false

def closeTag (locate : Nat → Position) (tag : CloseTag) : Action Unit := do
  if ← matchClose locate tag then
    pop
    emit (closeEvents tag .closeStart .closeEnd)
  else
    warn .unmatchedClose tag.name (locate tag.start.start)
    emit (closeEvents tag .unmatchedStart .unmatchedEnd)

/-- One token; the result is the name of a raw text element that it opens. -/
def process (locate : Nat → Position) (token : Token) : Action (Option Span) := do
  match token with
  | .openTag tag => openTag tag
  | .closeTag tag =>
    closeTag locate tag
    return none
  | token =>
    emit (Event.ofToken? token).toList
    return none

/-- The end of the document. -/
def finish (locate : Nat → Position) : Action Unit := do
  let b ← get
  if b.stack.isEmpty then
    return
  match b.policy with
  | .requireBalanced =>
    throw (.unclosedElements (b.frames.reverse.map (Utf8.decodeLossy ·.name)) (locate b.input.length))
  | .autoClose =>
    if b.dialect.isStrict then warnAll .unclosedAtEnd (locate b.input.length) b.stack
    autoClose b.input.length b.stack.length
  | .noBalancing => return

end Program

section Perform

variable {α β : Type} {b : Balancer}

@[simp] theorem perform_pure (a : α) (b : Balancer) : perform (pure a) b = (.ok a, b) := rfl

@[simp] theorem perform_get (b : Balancer) : perform get b = (.ok b, b) := rfl

@[simp] theorem perform_modify (f : Balancer → Balancer) (b : Balancer) :
    perform (modify f) b = (.ok (), f b) := rfl

@[simp] theorem perform_throw (e : ParseError) (b : Balancer) :
    perform (throw e : Action α) b = (.error e, b) := rfl

theorem perform_bind (action : Action α) (next : α → Action β) (b : Balancer) :
    perform (action >>= next) b =
      match perform action b with
      | (.ok a, t) => perform (next a) t
      | (.error e, t) => (.error e, t) := by
  simp only [perform, ExceptT.run_bind, StateT.run_bind]
  generalize action.run.run b = result
  obtain ⟨answer, t⟩ := result
  cases answer <;> rfl

theorem perform_bind_of_ok {action : Action α} {next : α → Action β} {a : α} {t : Balancer}
    (h : perform action b = (.ok a, t)) : perform (action >>= next) b = perform (next a) t := by
  rw [perform_bind, h]

/-- What comes after a failure is not performed. -/
theorem perform_bind_of_error {action : Action α} {next : α → Action β} {e : ParseError} {t : Balancer}
    (h : perform action b = (.error e, t)) : perform (action >>= next) b = (.error e, t) := by
  rw [perform_bind, h]

@[simp] theorem perform_pop (b : Balancer) :
    perform pop b = (.ok (), { b with stack := b.stack.tail }) := rfl

@[simp] theorem perform_warnAll (kind : WarningKind) (position : Position) (links : List Link)
    (b : Balancer) :
    perform (warnAll kind position links) b = (.ok (), { b with
      warnings := b.warnings ++ Nesting.frameWarnings kind position (links.map b.frame) }) := by
  induction links generalizing b with
  | nil =>
    rw [warnAll, perform_pure, List.map_nil, Nesting.frameWarnings, List.map_nil, List.append_nil]
  | cons link outer ih =>
    rw [warnAll, perform_bind]
    change perform (warnAll kind position outer) _ = _
    rw [ih, List.append_assoc]
    rfl

@[simp] theorem perform_autoClose (offset count : Nat) (b : Balancer) :
    perform (autoClose offset count) b = (.ok (), { b with
      stack := b.stack.drop count
      queue := b.queue ++ Nesting.autoCloseEvents offset (b.frames.take count) }) := by
  induction count generalizing b with
  | zero =>
    rw [autoClose, perform_pure, List.drop_zero, List.take_zero, Nesting.autoCloseEvents,
      List.flatMap_nil, List.append_nil]
  | succ count ih =>
    obtain ⟨input, dialect, policy, stack, maxDepth, queue, warnings⟩ := b
    rw [autoClose, perform_bind, perform_get]
    cases stack with
    | nil =>
      change perform (pure ()) _ = _
      rw [perform_pure, frames, List.map_nil, List.take_nil, List.drop_nil, Nesting.autoCloseEvents,
        List.flatMap_nil, List.append_nil]
    | cons link outer =>
      change perform (autoClose offset count) _ = _
      rw [ih, List.append_assoc, List.append_assoc]
      rfl

end Perform

section Simulation

variable {n : Nesting} {locate : Nat → Position} {queue : List Event} {warnings : List Warning}

/-- Open elements, each linked to the one around it. -/
def linked : List Frame → List Link
  | [] => []
  | frame :: outer =>
    ⟨frame.span, if outer.isEmpty then none else some (outer.length - 1)⟩ :: linked outer

/-- The automaton in the state of a nesting. -/
def ofNesting (n : Nesting) (queue : List Event) (warnings : List Warning) : Balancer :=
  ⟨n.input, n.dialect, n.policy, linked n.stack, n.maxDepth, queue, warnings⟩

@[simp] theorem length_linked (frames : List Frame) : (linked frames).length = frames.length := by
  induction frames with
  | nil => rfl
  | cons frame outer ih => exact congrArg Nat.succ ih

theorem isEmpty_linked (frames : List Frame) : (linked frames).isEmpty = frames.isEmpty := by
  cases frames <;> rfl

theorem drop_linked (frames : List Frame) (count : Nat) :
    (linked frames).drop count = linked (frames.drop count) := by
  induction frames generalizing count with
  | nil => rw [List.drop_nil, linked, List.drop_nil]
  | cons frame outer ih =>
    cases count with
    | zero => rfl
    | succ count => exact ih count

theorem frames_ofNesting (h : n.Named) : (ofNesting n queue warnings).frames = n.stack := by
  have hframes : ∀ frames : List Frame, (∀ frame ∈ frames, frame.name = frame.span.slice n.input) →
      (linked frames).map (fun link => (⟨link.name, link.name.slice n.input⟩ : Frame)) = frames := by
    intro frames hnamed
    induction frames with
    | nil => rfl
    | cons frame outer ih =>
      obtain ⟨hname, hnamed⟩ := List.forall_mem_cons.1 hnamed
      rw [linked, List.map_cons, ih hnamed, ← hname]
  exact hframes n.stack h

theorem nesting_ofNesting (h : n.Named) : (ofNesting n queue warnings).nesting = n := by
  rw [nesting, frames_ofNesting h]
  rfl

theorem perform_emit_ofNesting (events : List Event) :
    perform (emit events) (ofNesting n queue warnings) =
      (.ok (), ofNesting n (queue ++ events) warnings) := rfl

theorem perform_warn_ofNesting (kind : WarningKind) (name : Span) (position : Position) :
    perform (warn kind name position) (ofNesting n queue warnings) =
      (.ok (), ofNesting n queue
        (warnings ++ [⟨kind, Utf8.decodeLossy (name.slice n.input), position⟩])) := rfl

theorem perform_deepen_ofNesting :
    perform deepen (ofNesting n queue warnings) =
      (.ok (), ofNesting { n with maxDepth := max n.maxDepth (n.stack.length + 1) } queue warnings) := by
  rw [deepen, perform_modify, ofNesting, length_linked]
  rfl

theorem perform_push_ofNesting (name : Span) :
    perform (push name) (ofNesting n queue warnings) =
      (.ok (), ofNesting { n with stack := ⟨name, name.slice n.input⟩ :: n.stack } queue warnings) := by
  rw [push, perform_modify, ofNesting, isEmpty_linked, length_linked]
  rfl

theorem perform_pop_ofNesting :
    perform pop (ofNesting n queue warnings) =
      (.ok (), ofNesting { n with stack := n.stack.drop 1 } queue warnings) := by
  rw [perform_pop, ofNesting, ← List.drop_one, drop_linked]
  rfl

theorem perform_autoClose_ofNesting (hnamed : n.Named) (offset count : Nat) :
    perform (autoClose offset count) (ofNesting n queue warnings) =
      (.ok (), ofNesting { n with stack := n.stack.drop count }
        (queue ++ Nesting.autoCloseEvents offset (n.stack.take count)) warnings) := by
  rw [perform_autoClose, frames_ofNesting hnamed, ofNesting, drop_linked]
  rfl

/-- The warnings about the innermost elements. -/
theorem perform_warnAll_ofNesting (hnamed : n.Named) (kind : WarningKind) (position : Position)
    (count : Nat) :
    perform (warnAll kind position ((ofNesting n queue warnings).stack.take count))
        (ofNesting n queue warnings) =
      (.ok (), ofNesting n queue
        (warnings ++ Nesting.frameWarnings kind position (n.stack.take count))) := by
  have hframes : ((ofNesting n queue warnings).stack.take count).map
      (ofNesting n queue warnings).frame = n.stack.take count := by
    rw [List.map_take]
    exact congrArg (List.take count) (frames_ofNesting hnamed)
  rw [perform_warnAll, hframes]
  rfl

/-- The answer of the nesting to a token or to the end of the document, as the automaton gives it. -/
def answering (n : Nesting) (queue : List Event) (warnings : List Warning) :
    Except ParseError Nesting.Step → Except ParseError (Option Span) × Balancer
  | .ok step =>
    (.ok step.rawText, ofNesting step.nesting (queue ++ step.events) (warnings ++ step.warnings))
  | .error e => (.error e, ofNesting n queue warnings)

theorem perform_openTag (hnamed : n.Named) (tag : OpenTag) :
    perform (openTag tag) (ofNesting n queue warnings) =
      answering n queue warnings (.ok (n.openElement tag)) := by
  rw [openTag, perform_bind_of_ok (perform_get _), nesting_ofNesting hnamed,
    perform_bind_of_ok (perform_autoClose_ofNesting hnamed _ _),
    perform_bind_of_ok perform_deepen_ofNesting]
  have hinput : (ofNesting n queue warnings).input = n.input := rfl
  rw [hinput, Nesting.openElement]
  dsimp only
  by_cases halone : tag.selfClosing || (n.spec? (tag.name.slice n.input)).any (·.void)
  · rw [if_pos halone, if_pos halone, perform_bind_of_ok (perform_emit_ofNesting _), perform_pure,
      answering, List.append_assoc, List.append_nil]
    rfl
  · rw [if_neg halone, if_neg halone, perform_bind_of_ok (perform_emit_ofNesting _),
      perform_bind_of_ok (perform_push_ofNesting _), perform_pure, answering, List.append_assoc,
      List.append_nil]
    rfl

section CloseTag

variable {tag : CloseTag}

theorem perform_closeTag_of_true {b : Balancer}
    (h : perform (matchClose locate tag) b = (.ok true, ofNesting n queue warnings)) :
    perform (closeTag locate tag) b =
      (.ok (), ofNesting { n with stack := n.stack.drop 1 }
        (queue ++ Nesting.closeEvents tag .closeStart .closeEnd) warnings) := by
  rw [closeTag, perform_bind_of_ok h, if_pos rfl, perform_bind_of_ok perform_pop_ofNesting]
  rfl

theorem perform_closeTag_of_false {b : Balancer}
    (h : perform (matchClose locate tag) b = (.ok false, ofNesting n queue warnings)) :
    perform (closeTag locate tag) b =
      (.ok (), ofNesting n (queue ++ Nesting.closeEvents tag .unmatchedStart .unmatchedEnd)
        (warnings ++ [⟨.unmatchedClose, Utf8.decodeLossy (tag.name.slice n.input),
          locate tag.start.start⟩])) := by
  rw [closeTag, perform_bind_of_ok h, if_neg Bool.false_ne_true,
    perform_bind_of_ok (perform_warn_ofNesting _ _ _)]
  rfl

theorem perform_closeTag_of_error {b t : Balancer} {e : ParseError}
    (h : perform (matchClose locate tag) b = (.error e, t)) :
    perform (closeTag locate tag) b = (.error e, t) := perform_bind_of_error h

/-- The element of a close tag is found, and those inside it are closed, in the order of the program. -/
theorem perform_matchClose (hnamed : n.Named) (locate : Nat → Position) (tag : CloseTag) :
    perform (matchClose locate tag) (ofNesting n queue warnings) =
      match n.innerCount? (tag.name.slice n.input), n.policy with
      | some 0, _ => (.ok true, ofNesting n queue warnings)
      | some count, .autoClose => (.ok true, ofNesting { n with stack := n.stack.drop count }
          (queue ++ Nesting.autoCloseEvents tag.start.start (n.stack.take count))
          (warnings ++ if n.dialect.isStrict
            then Nesting.frameWarnings .autoClosed (locate tag.start.start) (n.stack.take count) else []))
      | _, .requireBalanced =>
        (.error (.unbalancedClose (Utf8.decodeLossy (tag.name.slice n.input))
          (locate tag.start.start)), ofNesting n queue warnings)
      | _, _ => (.ok false, ofNesting n queue warnings) := by
  have hinput : (ofNesting n queue warnings).input = n.input := rfl
  have hpolicy : (ofNesting n queue warnings).policy = n.policy := rfl
  rw [matchClose, perform_bind_of_ok (perform_get _), nesting_ofNesting hnamed, hinput, hpolicy]
  dsimp only
  split
  · rfl
  · have hstrict : (ofNesting n queue warnings).dialect = n.dialect := rfl
    rw [hstrict]
    by_cases hd : n.dialect.isStrict
    · rw [if_pos hd, if_pos hd, perform_bind_of_ok (perform_warnAll_ofNesting hnamed _ _ _),
        perform_bind_of_ok (perform_autoClose_ofNesting hnamed _ _)]
      rfl
    · rw [if_neg hd, if_neg hd, perform_bind_of_ok (perform_autoClose_ofNesting hnamed _ _),
        List.append_nil]
      rfl
  · rfl
  · rfl

theorem perform_closeTag (hnamed : n.Named) (locate : Nat → Position) (tag : CloseTag) :
    perform (do closeTag locate tag; return none) (ofNesting n queue warnings) =
      answering n queue warnings (n.closeElement locate tag) := by
  have hmatch : perform _ (ofNesting n queue warnings) = _ := perform_matchClose hnamed locate tag
  have hclose : n.closeElement locate tag =
      match n.innerCount? (tag.name.slice n.input), n.policy with
      | some 0, _ => .ok (n.closeMatched locate tag 0)
      | some count, .autoClose => .ok (n.closeMatched locate tag count)
      | _, .requireBalanced =>
        .error (.unbalancedClose (Utf8.decodeLossy (tag.name.slice n.input)) (locate tag.start.start))
      | _, _ => .ok (n.closeUnmatched locate tag) := rfl
  rw [hclose]
  -- Both go by the same cases.
  revert hmatch
  split
  · intro hmatch
    rw [perform_bind_of_ok (perform_closeTag_of_true hmatch), perform_pure]
    have hnothing : (n.closeMatched locate tag 0).warnings = [] := ite_self _
    rw [answering, hnothing, List.append_nil]
    rfl
  · intro hmatch
    rw [perform_bind_of_ok (perform_closeTag_of_true hmatch), perform_pure, List.drop_drop,
      List.append_assoc]
    rfl
  · intro hmatch
    rw [perform_bind_of_error (perform_closeTag_of_error hmatch)]
    rfl
  · intro hmatch
    rw [perform_bind_of_ok (perform_closeTag_of_false hmatch)]
    rfl

end CloseTag

/-- The automaton answers every token as the nesting does. -/
theorem perform_process (hnamed : n.Named) (locate : Nat → Position) (token : Token) :
    perform (process locate token) (ofNesting n queue warnings) =
      answering n queue warnings (n.accept locate token) := by
  cases token with
  | openTag tag => exact perform_openTag hnamed tag
  | closeTag tag => exact perform_closeTag hnamed locate tag
  | _ =>
    rw [Nesting.accept, answering, List.append_nil]
    rfl

/-- At the end of the document it does so as well. -/
theorem perform_finish (hnamed : n.Named) (locate : Nat → Position) :
    perform (finish locate) (ofNesting n queue warnings) =
      match n.finish locate with
      | .ok step =>
        (.ok (), ofNesting step.nesting (queue ++ step.events) (warnings ++ step.warnings))
      | .error e => (.error e, ofNesting n queue warnings) := by
  have hempty : (ofNesting n queue warnings).stack.isEmpty = n.stack.isEmpty := isEmpty_linked n.stack
  have hframes : (ofNesting n queue warnings).frames = n.stack := frames_ofNesting hnamed
  have hpolicy : (ofNesting n queue warnings).policy = n.policy := rfl
  have hinput : (ofNesting n queue warnings).input = n.input := rfl
  have hdialect : (ofNesting n queue warnings).dialect = n.dialect := rfl
  rw [finish, perform_bind_of_ok (perform_get _), hempty, hframes, hpolicy, hinput, hdialect]
  cases hstack : n.stack with
  | nil =>
    have hfinish : n.finish locate = .ok ⟨n, [], [], none⟩ := by simp only [Nesting.finish, hstack]
    rw [hfinish, List.isEmpty_nil, if_pos rfl, perform_pure]
    dsimp only
    rw [List.append_nil, List.append_nil]
  | cons frame outer =>
    rw [List.isEmpty_cons, if_neg Bool.false_ne_true, ← hstack]
    cases hp : n.policy with
    | noBalancing =>
      have hfinish : n.finish locate = .ok ⟨n, [], [], none⟩ := by
        simp only [Nesting.finish, hstack, hp]
      rw [hfinish, perform_pure]
      dsimp only
      rw [List.append_nil, List.append_nil]
    | requireBalanced =>
      have hfinish : n.finish locate = .error (.unclosedElements
          (n.stack.reverse.map (Utf8.decodeLossy ·.name)) (locate n.input.length)) := by
        simp only [Nesting.finish, hstack, hp]
      rw [hfinish, perform_throw]
    | autoClose =>
      have hfinish : n.finish locate = .ok ⟨{ n with stack := [] },
          Nesting.autoCloseEvents n.input.length n.stack,
          if n.dialect.isStrict
            then Nesting.frameWarnings .unclosedAtEnd (locate n.input.length) n.stack else [],
          none⟩ := by
        simp only [Nesting.finish, hstack, hp]
      have hlength : (ofNesting n queue warnings).stack.length = n.stack.length :=
        length_linked n.stack
      have hwarn : perform _ (ofNesting n queue warnings) = _ :=
        perform_warnAll_ofNesting hnamed .unclosedAtEnd (locate n.input.length) n.stack.length
      rw [← hlength, List.take_length, hlength, List.take_length] at hwarn
      have hclose (found : List Warning) : perform _ (ofNesting n queue found) = _ :=
        perform_autoClose_ofNesting hnamed n.input.length n.stack.length
      rw [List.take_length, List.drop_length] at hclose
      rw [hfinish, hlength]
      dsimp only
      by_cases hd : n.dialect.isStrict
      · rw [if_pos hd, if_pos hd, perform_bind_of_ok hwarn, hclose]
      · rw [if_neg hd, if_neg hd, hclose, List.append_nil]

end Simulation

section Drive

/-- A token, with the positions that a diagnostic about it has. -/
abbrev Placed := (Nat → Position) × Token

/-- Processes tokens one after another and goes on after failures. -/
def drive (b : Balancer) : List Placed → List (Except ParseError (Option Span)) × Balancer
  | [] => ([], b)
  | (locate, token) :: rest =>
    let (answer, t) := perform (process locate token) b
    let (answers, last) := drive t rest
    (answer :: answers, last)

/-- What was not answered with an error. -/
def unrejected (tokens : List Placed) (answers : List (Except ParseError (Option Span))) :
    List Placed :=
  ((tokens.zip answers).filter fun (_, answer) => answer.toBool).map Prod.fst

variable {n : Nesting} {queue : List Event} {warnings : List Warning} {locate : Nat → Position}
  {token : Token}

theorem drive_of_ok {step : Nesting.Step} (hnamed : n.Named) (h : n.accept locate token = .ok step)
    (rest : List Placed) :
    let later := drive (ofNesting step.nesting (queue ++ step.events) (warnings ++ step.warnings)) rest
    drive (ofNesting n queue warnings) ((locate, token) :: rest) =
      (.ok step.rawText :: later.1, later.2) := by
  rw [drive, perform_process hnamed, h]
  rfl

theorem drive_of_error {e : ParseError} (hnamed : n.Named) (h : n.accept locate token = .error e)
    (rest : List Placed) :
    let later := drive (ofNesting n queue warnings) rest
    drive (ofNesting n queue warnings) ((locate, token) :: rest) = (.error e :: later.1, later.2) := by
  rw [drive, perform_process hnamed, h]
  rfl

/-- Whatever is done with tokens, the automaton stays in the state of a nesting. -/
theorem exists_drive (hnamed : n.Named) (tokens : List Placed) :
    ∃ m queue' warnings', m.Named ∧
      (drive (ofNesting n queue warnings) tokens).2 = ofNesting m queue' warnings' := by
  induction tokens generalizing n queue warnings with
  | nil => exact ⟨n, queue, warnings, hnamed, rfl⟩
  | cons placed rest ih =>
    obtain ⟨locate, token⟩ := placed
    cases h : n.accept locate token with
    | ok step =>
      rw [drive_of_ok hnamed h]
      exact ih ((Nesting.accepts_accept h).named hnamed)
    | error e =>
      rw [drive_of_error hnamed h]
      exact ih hnamed

/-- A run without the rejected tokens is the run with them, less the errors. -/
theorem drive_unrejected (hnamed : n.Named) (tokens : List Placed) :
    let run := drive (ofNesting n queue warnings) tokens
    drive (ofNesting n queue warnings) (unrejected tokens run.1) =
      (run.1.filter Except.toBool, run.2) := by
  induction tokens generalizing n queue warnings with
  | nil => rfl
  | cons placed rest ih =>
    obtain ⟨locate, token⟩ := placed
    cases h : n.accept locate token with
    | ok step =>
      have hrest := @ih _ (queue ++ step.events) (warnings ++ step.warnings)
        ((Nesting.accepts_accept h).named hnamed)
      rw [drive_of_ok hnamed h]
      dsimp only at hrest ⊢
      have hkept (answers : List (Except ParseError (Option Span))) :
          unrejected ((locate, token) :: rest) (.ok step.rawText :: answers) =
            (locate, token) :: unrejected rest answers := rfl
      rw [hkept, drive_of_ok hnamed h, hrest]
      rfl
    | error e =>
      have hrest := @ih n queue warnings hnamed
      rw [drive_of_error hnamed h]
      have hkept (answers : List (Except ParseError (Option Span))) :
          unrejected ((locate, token) :: rest) (.error e :: answers) = unrejected rest answers := rfl
      exact (congrArg _ (hkept _)).trans hrest

/-- Only close tags are rejected, and only where close tags must match. -/
theorem closeTag_of_rejected (hnamed : n.Named) {tokens : List Placed} {placed : Placed}
    {e : ParseError}
    (h : (placed, .error e) ∈ tokens.zip (drive (ofNesting n queue warnings) tokens).1) :
    n.policy = .requireBalanced ∧ ∃ tag, placed.2 = .closeTag tag := by
  induction tokens generalizing n queue warnings with
  | nil => cases h
  | cons first rest ih =>
    obtain ⟨locate, token⟩ := first
    cases haccept : n.accept locate token with
    | ok step =>
      rw [drive_of_ok hnamed haccept] at h
      have haccepts := Nesting.accepts_accept haccept
      rcases List.mem_cons.1 h with heq | hmem
      · cases heq
      · rw [← haccepts.same.2.2]
        exact ih (haccepts.named hnamed) hmem
    | error failure =>
      rw [drive_of_error hnamed haccept] at h
      rcases List.mem_cons.1 h with heq | hmem
      · obtain ⟨rfl, -⟩ := Prod.mk.inj heq
        obtain ⟨hpolicy, tag, rfl, -⟩ := Nesting.accept_eq_error haccept
        exact ⟨hpolicy, tag, rfl⟩
      · exact ih hnamed hmem

/-- A failure at the end of the document changes nothing. -/
theorem eq_of_finish_eq_error (hnamed : n.Named) {e : ParseError} {t : Balancer}
    (h : perform (finish locate) (ofNesting n queue warnings) = (.error e, t)) :
    t = ofNesting n queue warnings := by
  rw [perform_finish hnamed] at h
  split at h
  · cases h
  · exact (Prod.mk.inj h).2.symm

end Drive

/-- A rejected close tag leaves no trace. Whatever tokens are processed, in a run that goes on after
failures, the run without the rejected ones gives the same answers but for the errors, so that it never
fails, and it comes to the same state: the same events, warnings, greatest depth and open elements with
their links, and so the same end of the document. Only close tags are rejected, and only where close tags
must match. Nor does a failure at the end of the document change anything. -/
theorem rejected_without_trace (input : Bytes) (dialect : Dialect) (policy : Policy)
    (tokens : List Placed) :
    let b := ofInput input dialect policy
    let run := b.drive tokens
    let clean := b.drive (unrejected tokens run.1)
    clean.1 = run.1.filter Except.toBool ∧ clean.2 = run.2 ∧
      (∀ placed e, (placed, .error e) ∈ tokens.zip run.1 →
        policy = .requireBalanced ∧ ∃ tag, placed.2 = .closeTag tag) ∧
      ∀ locate, perform (finish locate) clean.2 = perform (finish locate) run.2 ∧
        ∀ e t, perform (finish locate) run.2 = (.error e, t) → t = run.2 := by
  intro b run clean
  have hnamed : (Nesting.ofInput input dialect policy).Named := nofun
  have hclean : clean = (run.1.filter Except.toBool, run.2) := drive_unrejected hnamed tokens
  have hexists : ∃ m queue warnings, m.Named ∧ run.2 = ofNesting m queue warnings :=
    exists_drive hnamed tokens
  obtain ⟨m, queue, warnings, hm, hlast⟩ := hexists
  refine ⟨by rw [hclean], by rw [hclean], ?_, ?_⟩
  · intro placed e hmem
    exact closeTag_of_rejected hnamed hmem
  · intro locate
    refine ⟨by rw [hclean], ?_⟩
    intro e t h
    rw [hlast] at h ⊢
    exact eq_of_finish_eq_error hm h

/-- The close tag in the middle is rejected, and the one after it is not. -/
example :
    let input := Bytes.ofString "<a></b></a>"
    let locate := Position.ofOffset input
    let tokens : List Placed :=
      [(locate, .openTag ⟨⟨0, 2⟩, ⟨1, 2⟩, [], ⟨2, 3⟩, false⟩),
        (locate, .closeTag ⟨⟨3, 6⟩, ⟨5, 6⟩, none, ⟨6, 7⟩⟩),
        (locate, .closeTag ⟨⟨7, 10⟩, ⟨9, 10⟩, none, ⟨10, 11⟩⟩)]
    let run := (ofInput input .xml .requireBalanced).drive tokens
    run.1.map Except.toBool = [true, false, true] ∧ run.2.stack = [] := by
  decide

end Balancer

end MarkupStream
