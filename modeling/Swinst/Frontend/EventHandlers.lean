import Swinst.Data.PyHeap

/-! `winui/ui.py`: the registry of event handlers, four levels of dictionaries in which `None` stands for any value,
and the dispatcher that looks up what has been registered. -/

namespace Swinst.Frontend

variable {κ ω ρ : Type} [DecidableEq κ] [DecidableEq ω]

/-- What is registered: an object, and the name of its method -/
abbrev Handler (ω : Type) := ω × Text

abbrev Objects (κ ω : Type) := PyHeap (Option κ) (Handler ω)

/-- `handled_event` -/
structure HandledEvent (κ : Type) where
  hwnd : Option κ
  message : Option κ
  wparam : Option κ
  lparam : Option κ

structure Event (κ : Type) where
  hwnd : κ
  message : κ
  wparam : κ
  lparam : κ

/-- `_event_handlers_` -/
def eventHandlers : Address := 0

/-- `_event_handlers_ = {}` -/
def noHandlers : Objects κ ω := [.dict []]

/-- `_add_event_handler` -/
def addEventHandler (handler : Handler ω) (handledEvent : HandledEvent κ) (objects : Objects κ ω) :
    Except PyError (Objects κ ω) := do
  let (eh, objects) ← objects.setdefault eventHandlers handledEvent.hwnd (.dict [])
  let (eh, objects) ← objects.setdefault eh handledEvent.message (.dict [])
  let (eh, objects) ← objects.setdefault eh handledEvent.wparam (.dict [])
  let (handlers, objects) ← objects.setdefault eh handledEvent.lparam (.set ∅)
  objects.add handlers handler

/-- `for eh in [eh.get(key, na), eh.get(None, na)]` -/
def forBoth (na : Address) (key : κ) (body : Address → Objects κ ω → Except PyError (Objects κ ω)) (eh : Address)
    (objects : Objects κ ω) : Except PyError (Objects κ ω) := do
  let ehs := [← objects.get eh (some key) na, ← objects.get eh none na]
  ehs.foldlM (fun objects eh => body eh objects) objects

/-- The body of the innermost of the loops -/
def collectFrom (nas handlers : Address) (lparam : κ) (eh : Address) (objects : Objects κ ω) :
    Except PyError (Objects κ ω) := do
  let objects ← objects.update handlers (← objects.get eh (some lparam) nas)
  objects.update handlers (← objects.get eh none nas)

/-- The handlers that `event_dispatcher` collects -/
def collect (event : Event κ) (objects : Objects κ ω) : Except PyError (Finset (Handler ω) × Objects κ ω) := do
  let na := objects.length
  let nas := objects.length + 1
  let handlers := objects.length + 2
  let objects := objects ++ [.dict [], .set ∅, .set ∅]
  let objects ← forBoth na event.hwnd (forBoth na event.message (forBoth na event.wparam
    (collectFrom nas handlers event.lparam))) eventHandlers objects
  return (← objects.set? handlers, objects)

/-- What the dispatcher calls. What a handler does to the registry comes after all that the dispatcher does with it. -/
structure Callbacks (κ ω ρ : Type) where
  /-- the order in which a set is iterated -/
  order : Finset (Handler ω) → List (Handler ω)
  /-- `getattr(obj, handler_name, None)`, called with the event; `none` for what is not callable -/
  call : Event κ → Handler ω → Option ρ
  truthy : ρ → Bool
  defWindowProc : Event κ → ρ

/-- `event_dispatcher` -/
def eventDispatcher (callbacks : Callbacks κ ω ρ) (event : Event κ) (objects : Objects κ ω) :
    Except PyError (ρ × Objects κ ω) := do
  let (handlers, objects) ← collect event objects
  let results := (callbacks.order handlers).filterMap (callbacks.call event)
  return ((results.find? callbacks.truthy).getD (callbacks.defWindowProc event), objects)

/-- What is done with the registry -/
inductive Call (κ ω : Type)
  | addEventHandler (handler : Handler ω) (handledEvent : HandledEvent κ)
  | eventDispatcher (event : Event κ)

def Call.run (objects : Objects κ ω) : Call κ ω → Except PyError (Objects κ ω)
  | addEventHandler handler handledEvent => Frontend.addEventHandler handler handledEvent objects
  | eventDispatcher event => (collect event objects).map (·.2)

/-- Each part of the pattern is a wildcard, or what the event has there. -/
structure HandledEvent.Matches (handledEvent : HandledEvent κ) (event : Event κ) : Prop where
  hwnd : handledEvent.hwnd = none ∨ handledEvent.hwnd = some event.hwnd
  message : handledEvent.message = none ∨ handledEvent.message = some event.message
  wparam : handledEvent.wparam = none ∨ handledEvent.wparam = some event.wparam
  lparam : handledEvent.lparam = none ∨ handledEvent.lparam = some event.lparam

/-! ## The registry -/

def HandledEvent.path (e : HandledEvent κ) : List (Option κ) := [e.lparam, e.wparam, e.message, e.hwnd]

/-- The registry is four dictionaries deep, and holds the handlers of these calls. -/
structure Registry (objects : Objects κ ω) (calls : List (Call κ ω)) : Prop where
  nested : objects.Nested eventHandlers 4
  content : ∀ path x, x ∈ objects.contentAt eventHandlers path ↔
    ∃ e, .addEventHandler x e ∈ calls ∧ path = e.path

variable {objects : Objects κ ω} {calls : List (Call κ ω)}

omit [DecidableEq ω] in
theorem registry_noHandlers : Registry (noHandlers : Objects κ ω) [] where
  nested := PyHeap.Nested.init 4
  content path x := by
    have hempty : (noHandlers : Objects κ ω).contentAt eventHandlers path = ∅ := PyHeap.Nested.contentAt_init 4 path
    simp [hempty]

theorem addEventHandler_registry (h : Registry objects calls) (handler : Handler ω) (e : HandledEvent κ) :
    ∃ objects', addEventHandler handler e objects = .ok objects' ∧
      Registry objects' (calls ++ [.addEventHandler handler e]) := by
  have hroot : objects.addressAt eventHandlers [] = some eventHandlers := rfl
  obtain ⟨a₁, o₁, h₁, n₁, ha₁, c₁⟩ := h.nested.setdefault_spec hroot (by simp) e.hwnd
  obtain ⟨a₂, o₂, h₂, n₂, ha₂, c₂⟩ := n₁.setdefault_spec ha₁ (by simp) e.message
  obtain ⟨a₃, o₃, h₃, n₃, ha₃, c₃⟩ := n₂.setdefault_spec ha₂ (by simp) e.wparam
  obtain ⟨a₄, o₄, h₄, n₄, ha₄, c₄⟩ := n₃.setdefault_spec ha₃ (by simp) e.lparam
  obtain ⟨o₅, h₅, n₅, c₅⟩ := n₄.add_spec ha₄ (by simp) handler
  refine ⟨o₅, ?_, n₅, fun path x => ?_⟩
  · have hdict (path : List (Option κ)) (hlt : path.length < 4) :
        (PyHeap.newAt 4 path : PyObject (Option κ) (Handler ω)) = .dict [] := if_pos hlt
    have hset : (PyHeap.newAt 4 e.path : PyObject (Option κ) (Handler ω)) = .set ∅ := rfl
    rw [hdict _ (by simp)] at h₁ h₂ h₃
    change o₃.setdefault a₃ e.lparam (PyHeap.newAt 4 e.path) = _ at h₄
    rw [hset] at h₄
    rw [addEventHandler, h₁]
    simp only [bind, Except.bind, h₂, h₃, h₄, h₅]
  · have hcontent : o₄.contentAt eventHandlers path = objects.contentAt eventHandlers path := by
      rw [c₄, c₃, c₂, c₁]
    have hmem : x ∈ o₅.contentAt eventHandlers path ↔
        path = e.path ∧ x = handler ∨ x ∈ objects.contentAt eventHandlers path := by
      rw [c₅, hcontent]
      by_cases hpath : path = [e.lparam, e.wparam, e.message, e.hwnd]
      · simp [HandledEvent.path, hpath]
      · simp [HandledEvent.path, hpath]
    rw [hmem, h.content]
    constructor
    · rintro (⟨hpath, rfl⟩ | ⟨e', he', hpath⟩)
      · exact ⟨e, List.mem_append_right _ List.mem_cons_self, hpath⟩
      · exact ⟨e', List.mem_append_left _ he', hpath⟩
    · rintro ⟨e', he', hpath⟩
      rcases List.mem_append.mp he' with he' | he'
      · exact .inr ⟨e', he', hpath⟩
      · obtain ⟨rfl, rfl⟩ := Call.addEventHandler.inj (List.mem_singleton.mp he')
        exact .inl ⟨hpath, rfl⟩

/-! ## The dispatcher -/

/-- The objects while the dispatcher runs, with the handlers collected so far -/
def whileCollecting (objects : Objects κ ω) (handlers : Finset (Handler ω)) : Objects κ ω :=
  objects ++ [.dict [], .set ∅, .set handlers]

/-- At the object of a path, or at `default` if there is none, a body collects these handlers. -/
def Collects (objects : Objects κ ω) (length : Nat)
    (body : Address → Objects κ ω → Except PyError (Objects κ ω)) (found : List (Option κ) → Finset (Handler ω)) : Prop :=
  ∀ path handlers, path.length = length →
    body ((objects.addressAt eventHandlers path).getD objects.length) (whileCollecting objects handlers) =
      .ok (whileCollecting objects (handlers ∪ found path))

/-- What is found with a key and with `None` -/
def both (key : κ) (found : List (Option κ) → Finset (Handler ω)) (path : List (Option κ)) : Finset (Handler ω) :=
  found (some key :: path) ∪ found (none :: path)

omit [DecidableEq κ] in
theorem mem_both {key : κ} {found : List (Option κ) → Finset (Handler ω)} {path : List (Option κ)} {x : Handler ω} :
    x ∈ both key found path ↔ ∃ k, (k = none ∨ k = some key) ∧ x ∈ found (k :: path) := by
  simp [both, or_comm]

/-- What is found at all sixteen paths -/
def found (event : Event κ) (objects : Objects κ ω) : Finset (Handler ω) :=
  both event.hwnd (both event.message (both event.wparam (both event.lparam (objects.contentAt eventHandlers)))) []

section Dispatch

variable (h : objects.Nested eventHandlers 4)

include h

theorem collects_forBoth {n : Nat} (hn : n < 4) (key : κ)
    {body : Address → Objects κ ω → Except PyError (Objects κ ω)} {found : List (Option κ) → Finset (Handler ω)}
    (hbody : Collects objects (n + 1) body found) :
    Collects objects n (forBoth objects.length key body) (both key found) := by
  intro path handlers hlength
  have hget (k : Option κ) : (whileCollecting objects handlers).get
      ((objects.addressAt eventHandlers path).getD objects.length) k objects.length =
        .ok ((objects.addressAt eventHandlers (k :: path)).getD objects.length) :=
    h.get_spec (by simp) (by omega) k _
  have hcons (k : Option κ) : (k :: path).length = n + 1 := congrArg Nat.succ hlength
  rw [forBoth, hget, hget]
  simp only [bind, Except.bind, List.foldlM_cons, hbody _ _ (hcons _)]
  rw [both, Finset.union_assoc]
  rfl

/-- `handlers |= eh.get(key, nas)` -/
theorem update_found {path : List (Option κ)} (hlength : path.length = 4) (handlers : Finset (Handler ω)) :
    (whileCollecting objects handlers).update (objects.length + 2)
      ((objects.addressAt eventHandlers path).getD (objects.length + 1)) =
        .ok (whileCollecting objects (handlers ∪ objects.contentAt eventHandlers path)) := by
  have htarget : (whileCollecting objects handlers).set? (objects.length + 2) = .ok handlers :=
    PyHeap.set?_eq (by simp [whileCollecting])
  have hsource : (whileCollecting objects handlers).set?
      ((objects.addressAt eventHandlers path).getD (objects.length + 1)) =
        .ok (objects.contentAt eventHandlers path) := by
    cases ha : objects.addressAt eventHandlers path with
    | none =>
      rw [PyHeap.contentAt_of_none ha]
      exact PyHeap.set?_eq (by simp [whileCollecting])
    | some a =>
      obtain ⟨-, elements, helements⟩ := h.sets ha hlength.ge
      rw [PyHeap.contentAt_eq ha helements]
      exact PyHeap.set?_eq ((h.same_append _ _ _ ha).trans helements)
  rw [PyHeap.update, htarget, hsource]
  simp only [bind, Except.bind, whileCollecting]
  rw [List.set_append_right _ _ (Nat.le_add_right ..), Nat.add_sub_cancel_left]
  rfl

theorem collects_collectFrom (lparam : κ) :
    Collects objects 3 (collectFrom (objects.length + 1) (objects.length + 2) lparam)
      (both lparam (objects.contentAt eventHandlers)) := by
  intro path handlers hlength
  have hget (handlers : Finset (Handler ω)) (k : Option κ) : (whileCollecting objects handlers).get
      ((objects.addressAt eventHandlers path).getD objects.length) k (objects.length + 1) =
        .ok ((objects.addressAt eventHandlers (k :: path)).getD (objects.length + 1)) :=
    h.get_spec (by simp) (by omega) k _
  have hcons (k : Option κ) : (k :: path).length = 4 := congrArg Nat.succ hlength
  rw [collectFrom, hget]
  simp only [bind, Except.bind, update_found h (hcons _), hget]
  rw [both, Finset.union_assoc]

theorem collect_eq (event : Event κ) :
    collect event objects = .ok (found event objects, whileCollecting objects (found event objects)) := by
  have hcollects := collects_forBoth h (by decide) event.hwnd (collects_forBoth h (by decide) event.message
    (collects_forBoth h (by decide) event.wparam (collects_collectFrom h event.lparam))) [] ∅ rfl
  rw [Finset.empty_union] at hcollects
  have hset : (whileCollecting objects (found event objects)).set? (objects.length + 2) = .ok (found event objects) :=
    PyHeap.set?_eq (by simp [whileCollecting])
  refine (congrArg (· >>= _) hcollects).trans ?_
  change ((whileCollecting objects (found event objects)).set? (objects.length + 2) >>= fun handlers =>
    pure (handlers, whileCollecting objects (found event objects))) = _
  rw [hset]
  rfl

end Dispatch

omit [DecidableEq ω] in
theorem collect_registry (h : Registry objects calls) (event : Event κ) (handlers : Finset (Handler ω)) :
    Registry (whileCollecting objects handlers) (calls ++ [.eventDispatcher event]) where
  nested := h.nested.congr (h.nested.same_append _)
  content path x := by
    rw [whileCollecting, PyHeap.contentAt_congr (h.nested.same_append _), h.content]
    simp

/-- Nothing is missed, and nothing more is found. -/
theorem mem_found_iff (h : Registry objects calls) (event : Event κ) (x : Handler ω) :
    x ∈ found event objects ↔ ∃ e, .addEventHandler x e ∈ calls ∧ e.Matches event := by
  simp only [found, mem_both, h.content]
  constructor
  · rintro ⟨hwnd, hhwnd, message, hmessage, wparam, hwparam, lparam, hlparam, e, he, hpath⟩
    simp only [HandledEvent.path, List.cons.injEq, and_true] at hpath
    obtain ⟨rfl, rfl, rfl, rfl⟩ := hpath
    exact ⟨e, he, hhwnd, hmessage, hwparam, hlparam⟩
  · rintro ⟨e, he, hmatches⟩
    exact ⟨_, hmatches.hwnd, _, hmatches.message, _, hmatches.wparam, _, hmatches.lparam, e, he, rfl⟩

/-- No call fails, and what has been registered remains. -/
theorem run_registry (calls : List (Call κ ω)) :
    ∃ objects, calls.foldlM Call.run noHandlers = .ok objects ∧ Registry objects calls := by
  induction calls using List.reverseRecOn with
  | nil => exact ⟨noHandlers, rfl, registry_noHandlers⟩
  | append_singleton calls call ih =>
    obtain ⟨objects, hrun, hregistry⟩ := ih
    have hnext : ∃ objects', call.run objects = .ok objects' ∧ Registry objects' (calls ++ [call]) := by
      cases call with
      | addEventHandler handler handledEvent => exact addEventHandler_registry hregistry handler handledEvent
      | eventDispatcher event =>
        exact ⟨_, by rw [Call.run, collect_eq hregistry.nested]; rfl, collect_registry hregistry event _⟩
    obtain ⟨objects', hcall, hregistry'⟩ := hnext
    refine ⟨objects', ?_, hregistry'⟩
    rw [List.foldlM_append, hrun]
    simp only [bind, Except.bind, List.foldlM_cons, hcall, List.foldlM_nil]
    rfl

/-- After any calls, the dispatcher collects the handlers that were registered with a pattern that matches the event,
and leaves all objects of the registry as they are. -/
theorem eventDispatcher_exact (callbacks : Callbacks κ ω ρ) (calls : List (Call κ ω)) (event : Event κ) :
    ∃ objects handlers objects' result, calls.foldlM Call.run noHandlers = .ok objects ∧
      collect event objects = .ok (handlers, objects') ∧
      eventDispatcher callbacks event objects = .ok (result, objects') ∧
      (∀ x, x ∈ handlers ↔ ∃ e, .addEventHandler x e ∈ calls ∧ e.Matches event) ∧
      (∀ a < objects.length, objects'[a]? = objects[a]?) ∧
      ∀ path, objects'.addressAt eventHandlers path = objects.addressAt eventHandlers path ∧
        objects'.contentAt eventHandlers path = objects.contentAt eventHandlers path := by
  obtain ⟨objects, hrun, hregistry⟩ := run_registry calls
  have hcollect := collect_eq hregistry.nested event
  have hsame := hregistry.nested.same_append [.dict [], .set ∅, .set (found event objects)]
  refine ⟨objects, found event objects, whileCollecting objects (found event objects), _, hrun, hcollect,
    by rw [eventDispatcher, hcollect]; rfl, mem_found_iff hregistry event, fun a ha => ?_, fun path => ⟨?_, ?_⟩⟩
  · exact List.getElem?_append_left ha
  · exact PyHeap.addressAt_congr hsame path
  · exact PyHeap.contentAt_congr hsame path

end Swinst.Frontend
