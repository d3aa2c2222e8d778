import IndentLint.Syntax.Event

/-!
# Building a tree from its own events

Adding the events of an element to a builder adds just the element, whatever is under construction around it.  So the
events of a node build this node.  A builder does not notice a node that is never finished, so that the events of a
node are balanced is said of the events themselves (`balanced_events_node`).
-/

namespace IndentLint

namespace Event

/-- The number of nodes that an event opens, a finish closing one. -/
def weight : Event → Int
  | start _ => 1
  | token .. => 0
  | finish => -1

/-- The number of nodes that are open after some events. -/
def depth : List Event → Int
  | [] => 0
  | event :: events => event.weight + depth events

/-- The first event opens a node, the last one closes it, and it stays open in between. -/
structure Balanced (events : List Event) : Prop where
  inside : ∀ front back, events = front ++ back → front ≠ [] → back ≠ [] → 0 < depth front
  closed : depth events = 0

@[simp] theorem depth_nil : depth [] = 0 := rfl

@[simp] theorem depth_cons (event : Event) (events : List Event) :
    depth (event :: events) = event.weight + depth events := rfl

@[simp] theorem depth_append (front back : List Event) : depth (front ++ back) = depth front + depth back := by
  induction front with
  | nil => rw [List.nil_append, depth_nil, Int.zero_add]
  | cons event front ih => rw [List.cons_append, depth_cons, depth_cons, ih, Int.add_assoc]

end Event

namespace Element

mutual

private theorem foldlM_add_events (e : Element) (b : Builder) :
    e.events.foldlM Builder.add b = .ok { b with newest := e :: b.newest } := by
  match e with
  | token kind text => rfl
  | node kind es =>
    have hstart : b.add (.start kind) = .ok ⟨⟨kind, b.newest⟩ :: b.started, []⟩ := rfl
    rw [events, List.foldlM_cons, hstart]
    show (eventsOfList es ++ [Event.finish]).foldlM Builder.add _ = _
    rw [List.foldlM_append, foldlM_add_eventsOfList es]
    show (.ok ⟨b.started, .node kind (es.reverse ++ []).reverse :: b.newest⟩ : Except BuildError Builder) = _
    rw [List.append_nil, List.reverse_reverse]

private theorem foldlM_add_eventsOfList (es : List Element) (b : Builder) :
    (eventsOfList es).foldlM Builder.add b = .ok { b with newest := es.reverse ++ b.newest } := by
  match es with
  | [] => rfl
  | e :: es =>
    rw [eventsOfList, List.foldlM_append, foldlM_add_events e]
    show (eventsOfList es).foldlM Builder.add _ = _
    rw [foldlM_add_eventsOfList es]
    simp

end

/-- The events of a node build this node. -/
theorem ofEvents_events_node (kind : Kind) (es : List Element) :
    ofEvents (events (node kind es)) = .ok (node kind es) := by
  rw [ofEvents, foldlM_add_events]
  rfl

theorem eventsOfList_append (es fs : List Element) :
    eventsOfList (es ++ fs) = eventsOfList es ++ eventsOfList fs := by
  induction es with
  | nil => rfl
  | cons e es ih => simp [eventsOfList, ih]

/-! ### Balance -/

open Event

mutual

private theorem depth_events (e : Element) : depth e.events = 0 := by
  match e with
  | token kind text => rfl
  | node kind es =>
    have hes := depth_eventsOfList es
    simp only [events, depth_cons, depth_append, depth_nil, hes, weight]
    omega

private theorem depth_eventsOfList (es : List Element) : depth (eventsOfList es) = 0 := by
  match es with
  | [] => rfl
  | e :: es =>
    have he := depth_events e
    have hes := depth_eventsOfList es
    rw [eventsOfList, depth_append]
    omega

end

/-- Before its last event a node is open if what is in it closes no more nodes than it opens. -/
private theorem depth_pos_of_node {kind : Kind} {es : List Element}
    (hes : ∀ front back, eventsOfList es = front ++ back → 0 ≤ depth front) {front back : List Event}
    (h : (node kind es).events = front ++ back) (hfront : front ≠ []) (hback : back ≠ []) : 0 < depth front := by
  cases front with
  | nil => exact absurd rfl hfront
  | cons event front =>
    obtain ⟨rfl, htail⟩ := List.cons.inj (h : Event.start kind :: (eventsOfList es ++ [Event.finish]) = _)
    have hinner : 0 ≤ depth front := by
      rcases List.append_eq_append_iff.1 htail with ⟨d, rfl, hd⟩ | ⟨d, hd, -⟩
      · -- only the finish is left, and it is not in front
        rcases d with _ | ⟨x, d⟩
        · have := depth_eventsOfList es
          rw [depth_append, depth_nil]
          omega
        · have hnil : d ++ back = [] := (List.cons.inj hd).2.symm
          exact absurd (List.append_eq_nil_iff.1 hnil).2 hback
      · exact hes front d hd
    rw [depth_cons, weight]
    omega

mutual

private theorem depth_nonneg_of_events (e : Element) {front back : List Event} (h : e.events = front ++ back) :
    0 ≤ depth front := by
  by_cases hfront : front = []
  · rw [hfront]
    exact Int.le_refl _
  · by_cases hback : back = []
    · have := depth_events e
      rw [hback, List.append_nil] at h
      rw [← h]
      omega
    · match e with
      | token kind text =>
        have hlength := congrArg List.length h
        have := List.length_pos_iff.2 hfront
        have := List.length_pos_iff.2 hback
        rw [events, List.length_singleton, List.length_append] at hlength
        omega
      | node kind es =>
        have hes : ∀ front back, eventsOfList es = front ++ back → 0 ≤ depth front :=
          fun _ _ h => depth_nonneg_of_eventsOfList es h
        have := depth_pos_of_node hes h hfront hback
        omega

private theorem depth_nonneg_of_eventsOfList (es : List Element) {front back : List Event}
    (h : eventsOfList es = front ++ back) : 0 ≤ depth front := by
  match es with
  | [] =>
    rw [(List.append_eq_nil_iff.1 h.symm).1]
    exact Int.le_refl _
  | e :: es =>
    rw [eventsOfList] at h
    rcases List.append_eq_append_iff.1 h with ⟨d, rfl, hd⟩ | ⟨d, hd, -⟩
    · have := depth_events e
      have := depth_nonneg_of_eventsOfList es hd
      rw [depth_append]
      omega
    · exact depth_nonneg_of_events e hd

end

/-- The events of a node are balanced. -/
theorem balanced_events_node (kind : Kind) (es : List Element) : Balanced (node kind es).events where
  inside _ _ h hfront hback := depth_pos_of_node (fun _ _ => depth_nonneg_of_eventsOfList es) h hfront hback
  closed := depth_events _

end Element

end IndentLint
