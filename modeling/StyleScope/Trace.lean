/-
# What happens on the way to a result

Reading and scoping a stylesheet gives a result or an error, and on the way
there it reports: warnings about text that was kept although it is malformed,
the steps taken, and the urls handed to a map of urls. `Traced` pairs the
two. The reports never influence the result, and an error keeps the reports
made before it.

A warning is shown once. That is decided afterwards, by a `Journal` that
remembers the warnings already shown.

Key definitions: `Event`, `Traced`, `Journal.record`.
Key theorems: `Traced.result_bind`, `Traced.events_bind`.
-/

namespace StyleScope

/-- Something worth reporting. -/
inductive Event where
  /-- Malformed input that was kept, found by `component`. -/
  | warning (component message : String)
  /-- The text of a rule or an at-rule was replaced. -/
  | debug (message : String)
  /-- A detail on the way to that. -/
  | trace (message : String)
  /-- A url in global or local scope was handed to the map of urls. -/
  | url (isGlobal : Bool) (text : String)
  deriving DecidableEq, Repr

/-- A result or an error, and the events on the way to it. -/
structure Traced (ε α : Type) where
  events : List Event
  result : Except ε α

namespace Traced

variable {ε ε' α β : Type}

/-- Reports one event. -/
def emit (e : Event) : Traced ε Unit :=
  ⟨[e], .ok ()⟩

/-- Reports events in order. -/
def emitAll (es : List Event) : Traced ε Unit :=
  ⟨es, .ok ()⟩

def fail (e : ε) : Traced ε α :=
  ⟨[], .error e⟩

/-- A result or an error that nothing is reported about. -/
def ofExcept (x : Except ε α) : Traced ε α :=
  ⟨[], x⟩

/-- The same with the error seen as one of another kind. -/
def mapError (f : ε → ε') (x : Traced ε α) : Traced ε' α :=
  ⟨x.events, x.result.mapError f⟩

/-- Goes on with a result; after an error nothing more happens. -/
protected def bind (x : Traced ε α) (f : α → Traced ε β) : Traced ε β :=
  match x.result with
  | .ok a => ⟨x.events ++ (f a).events, (f a).result⟩
  | .error e => ⟨x.events, .error e⟩

instance : Monad (Traced ε) where
  pure a := ⟨[], .ok a⟩
  bind := Traced.bind

@[ext] theorem ext {x y : Traced ε α} (he : x.events = y.events) (hr : x.result = y.result) :
    x = y := by
  cases x; cases y; simp_all

@[simp] theorem result_pure (a : α) : (pure a : Traced ε α).result = .ok a := rfl

@[simp] theorem events_pure (a : α) : (pure a : Traced ε α).events = [] := rfl

@[simp] theorem result_fail (e : ε) : (fail e : Traced ε α).result = .error e := rfl

@[simp] theorem events_fail (e : ε) : (fail e : Traced ε α).events = [] := rfl

@[simp] theorem result_emit (e : Event) : (emit e : Traced ε Unit).result = .ok () := rfl

@[simp] theorem events_emit (e : Event) : (emit e : Traced ε Unit).events = [e] := rfl

@[simp] theorem result_emitAll (es : List Event) :
    (emitAll es : Traced ε Unit).result = .ok () := rfl

@[simp] theorem events_emitAll (es : List Event) :
    (emitAll es : Traced ε Unit).events = es := rfl

@[simp] theorem result_ofExcept (x : Except ε α) : (ofExcept x).result = x := rfl

@[simp] theorem events_ofExcept (x : Except ε α) : (ofExcept x).events = [] := rfl

@[simp] theorem result_mapError (f : ε → ε') (x : Traced ε α) :
    (x.mapError f).result = x.result.mapError f := rfl

@[simp] theorem events_mapError (f : ε → ε') (x : Traced ε α) :
    (x.mapError f).events = x.events := rfl

/-- The result of a sequence depends on the results alone. -/
@[simp] theorem result_bind (x : Traced ε α) (f : α → Traced ε β) :
    (x >>= f).result = x.result >>= fun a => (f a).result := by
  cases x with
  | mk es r => cases r <;> rfl

theorem events_bind (x : Traced ε α) (f : α → Traced ε β) :
    (x >>= f).events =
      x.events ++ match x.result with
        | .ok a => (f a).events
        | .error _ => [] := by
  cases x with
  | mk es r => cases r <;> simp [Bind.bind, Traced.bind]

instance : LawfulMonad (Traced ε) := LawfulMonad.mk' _
  (fun x => by
    cases x with
    | mk es r => cases r <;> simp [Functor.map, Traced.bind])
  (fun a f => by simp [Bind.bind, Pure.pure, Traced.bind])
  (fun x f g => by
    cases x with
    | mk es r =>
      cases r with
      | error e => rfl
      | ok a =>
        simp only [Bind.bind, Traced.bind]
        cases (f a).result <;> simp)

end Traced

/-! ### The journal of shown reports -/

/-- How much is shown: warnings always, the rest on demand. -/
inductive Verbosity where
  | warnings
  | debug
  | trace
  deriving DecidableEq, Repr

/-- A line of the log. -/
structure Record where
  level : String
  target : String
  message : String
  deriving DecidableEq, Repr

/-- The warnings shown so far, under the texts that tell them apart. -/
structure Journal where
  warned : List String
  deriving DecidableEq, Repr

namespace Journal

def empty : Journal := ⟨[]⟩

/-- The text under which a warning is remembered. -/
def warningKey (component message : String) : String :=
  "[" ++ component ++ "] " ++ message

/-- The name of the log that everything but warnings goes to. -/
def logName : String := "scopify"

/-- Remembers a warning and tells whether it is new. -/
def warn (component message : String) (j : Journal) : Bool × Journal :=
  let key := warningKey component message
  if key ∈ j.warned then (false, j) else (true, ⟨key :: j.warned⟩)

/-- The line that an event adds to the log, if any. -/
def record (verbosity : Verbosity) (e : Event) (j : Journal) : List Record × Journal :=
  match e with
  | .warning component message =>
    match j.warn component message with
    | (true, j) => ([⟨"WARN", component, message⟩], j)
    | (false, j) => ([], j)
  | .debug message =>
    (if verbosity = .warnings then [] else [⟨"DEBUG", logName, message⟩], j)
  | .trace message =>
    (if verbosity = .trace then [⟨"TRACE", logName, message⟩] else [], j)
  | .url _ _ => ([], j)

/-- The lines that the events add to the log, in order. -/
def recordAll (verbosity : Verbosity) : List Event → Journal → List Record × Journal
  | [], j => ([], j)
  | e :: es, j =>
    let (lines, j) := j.record verbosity e
    let (more, j) := recordAll verbosity es j
    (lines ++ more, j)

end Journal

/-- The urls among the events, each with its scope, in order. -/
def Event.urls : List Event → List (Bool × String)
  | [] => []
  | .url isGlobal text :: es => (isGlobal, text) :: urls es
  | _ :: es => urls es

end StyleScope
