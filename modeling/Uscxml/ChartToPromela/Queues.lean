import Uscxml.Lib.Channel
import Mathlib.Data.List.Sort
import Mathlib.Data.List.Induction

/-!
# The external queues of the Promela model

The inline definitions `ChartToPromela` emits for the queues of external events: every event carries its delay, a send puts
its event behind the last one that is due no later, and time advances by the smallest delay of all queues. Events are
cancelled by their sendid, or with the invoker that sent them, by leading a queue once around.
-/

namespace Uscxml

namespace ChartToPromela

/-- `_event_t` with the members the queues look at; `rest` stands for the others. -/
structure Event (ρ : Type) where
  delay : Int
  name : Int
  sendid : Int
  origin : Int
  invokeid : Int
  rest : ρ
  deriving DecidableEq, Repr

abbrev Queue (ρ : Type) := Channel (Event ρ)

variable {ρ : Type}

def determineSmallestDelay (smallestDelay : Int) (queue : Queue ρ) : Int :=
  match queue.items with
  | [] => smallestDelay
  | tmpE :: _ => if tmpE.delay < smallestDelay then tmpE.delay else smallestDelay

-- The fuel of a loop through a queue is one more than its length: no loop makes more turns.
def advanceTime (increment : Int) (queue : Queue ρ) : Option (Queue ρ) :=
  queue.around (fun tmpE => some (if increment ≤ tmpE.delay then { tmpE with delay := tmpE.delay - increment } else tmpE))
    (queue.len + 1) 0

/-- The first loop of `insertWithDelay`: as many events as are counted go from the queue to `_iwdQ`, an array of a fixed
size. -/
def moveOver (size : Nat) : Nat → List (Event ρ) → Queue ρ → Option (List (Event ρ) × Queue ρ)
  | 0, iwdQ, queue => some (iwdQ, queue)
  | n + 1, iwdQ, queue =>
    queue.receive.bind fun (tmpE, queue) => if iwdQ.length < size then moveOver size n (iwdQ ++ [tmpE]) queue else none

/-- The second loop of `insertWithDelay`, with `_iwdInserted`. -/
def reinsert (lastE : Event ρ) : List (Event ρ) → Bool → Queue ρ → Option (Bool × Queue ρ)
  | [], inserted, queue => some (inserted, queue)
  | tmpE :: iwdQ, inserted, queue =>
    if lastE.delay < tmpE.delay ∧ inserted = false then
      (queue.send lastE).bind fun queue => (queue.send tmpE).bind (reinsert lastE iwdQ true)
    else
      (queue.send tmpE).bind (reinsert lastE iwdQ inserted)

def insertWithDelay (size : Nat) (queue : Queue ρ) : Option (Queue ρ) :=
  if 1 < queue.len then
    (moveOver size (queue.len - 1) [] queue).bind fun (iwdQ, queue) =>
      queue.receive.bind fun (lastE, queue) =>
        -- `assert(len(queue) == 0)`
        if queue.len = 0 then
          (reinsert lastE iwdQ false queue).bind fun (inserted, queue) => if inserted then some queue else queue.send lastE
        else none
  else some queue

def cancelled (sendIdentifier source : Int) (tmpE : Event ρ) : Bool :=
  !(decide (tmpE.sendid ≠ sendIdentifier) || decide (tmpE.origin ≠ source) || decide (tmpE.delay = 0))

def cancelSendIdOnQueue (sendIdentifier source : Int) (queue : Queue ρ) : Option (Queue ρ) :=
  queue.around (Option.guard fun tmpE => !cancelled sendIdentifier source tmpE) (queue.len + 1) 0

def pending (invoker : Int) (tmpE : Event ρ) : Bool :=
  !(false || decide (tmpE.delay = 0) || decide (tmpE.invokeid ≠ invoker))

def removePendingEventsFromInvokerOnQueue (invoker : Int) (queue : Queue ρ) : Option (Queue ρ) :=
  queue.turns (Option.guard fun tmpE => !pending invoker tmpE) queue.len

/-- The queues of all machines. Every event is given the number of its send, which no operation looks at. -/
structure System (ρ : Type) where
  iwdSize : Nat
  queues : List (Queue (Nat × ρ))
  sent : Nat

/-- The channels as they are declared, and the size of `_iwdQ`, for the lengths the machines ask for. -/
def System.start (externalQueueLengths : List Nat) : System ρ where
  iwdSize := externalQueueLengths.foldl max 1 + 6 - 1
  queues := externalQueueLengths.map fun n => Channel.empty (n + 6)
  sent := 0

inductive Operation (ρ : Type) where
  | send (queue : Nat) (event : Event ρ)
  | receive (queue : Nat)
  | advanceTime
  | cancelSendIdOnQueue (sendIdentifier source : Int) (queue : Nat)
  | removePendingEventsFromInvokerOnQueue (invoker : Int) (queue : Nat)

namespace System

def onQueue (s : System ρ) (i : Nat) (f : Queue (Nat × ρ) → Option (Queue (Nat × ρ))) : Option (System ρ) :=
  s.queues[i]?.bind fun queue => (f queue).map fun queue => { s with queues := s.queues.set i queue }

def stamp (s : System ρ) (event : Event ρ) : Event (Nat × ρ) :=
  { event with rest := (s.sent, event.rest) }

def smallestDelay (s : System ρ) : Int := s.queues.foldl determineSmallestDelay 2147483647

/-- One operation; there is no next state where it blocks. -/
def step (s : System ρ) : Operation ρ → Option (System ρ)
  | .send i event =>
    (s.onQueue i fun queue => (queue.send (s.stamp event)).bind (insertWithDelay s.iwdSize)).map
      fun s' => { s' with sent := s.sent + 1 }
  | .receive i => s.onQueue i fun queue => queue.receive.map Prod.snd
  -- The end of `scheduleMachines`.
  | .advanceTime =>
    if 0 < s.smallestDelay then
      (s.queues.mapM (ChartToPromela.advanceTime s.smallestDelay)).map fun queues => { s with queues := queues }
    else some s
  | .cancelSendIdOnQueue sendIdentifier source i => s.onQueue i (ChartToPromela.cancelSendIdOnQueue sendIdentifier source)
  | .removePendingEventsFromInvokerOnQueue invoker i =>
    s.onQueue i (ChartToPromela.removePendingEventsFromInvokerOnQueue invoker)

def run (s : System ρ) : List (Operation ρ) → Option (System ρ)
  | [] => some s
  | op :: ops => (s.step op).bind fun s => s.run ops

end System

/-- How `insertWithDelay` compares the last event with another one. -/
def Sooner (lastE tmpE : Event ρ) : Prop := lastE.delay < tmpE.delay

instance : DecidableRel (Sooner : Event ρ → Event ρ → Prop) := fun lastE tmpE => inferInstanceAs (Decidable (lastE.delay < tmpE.delay))

theorem moveOver_eq (size : Nat) (iwdQ : List (Event ρ)) {queue : Queue ρ} {l m : List (Event ρ)} (hitems : queue.items = l ++ m)
    (hsize : iwdQ.length + l.length ≤ size) :
    ∃ queue', moveOver size l.length iwdQ queue = some (iwdQ ++ l, queue') ∧ queue'.capacity = queue.capacity ∧
      queue'.items = m := by
  induction l generalizing queue iwdQ with
  | nil => exact ⟨queue, by simp [moveOver], rfl, hitems⟩
  | cons tmpE l ih =>
    obtain ⟨queue', hreceive, hcapacity, hitems'⟩ := Channel.receive_eq hitems
    have hroom : iwdQ.length < size := by
      rw [List.length_cons] at hsize
      omega
    obtain ⟨queue'', hmove, hcapacity', hitems''⟩ := ih (iwdQ ++ [tmpE]) hitems' (by simp at hsize ⊢; omega)
    refine ⟨queue'', ?_, hcapacity'.trans hcapacity, hitems''⟩
    simp only [List.length_cons, moveOver, hreceive, Option.bind_some, if_pos hroom, hmove]
    simp

theorem reinsert_inserted (lastE : Event ρ) (iwdQ : List (Event ρ)) (queue : Queue ρ)
    (hroom : queue.items.length + iwdQ.length ≤ queue.capacity) :
    ∃ queue', reinsert lastE iwdQ true queue = some (true, queue') ∧ queue'.capacity = queue.capacity ∧
      queue'.items = queue.items ++ iwdQ := by
  induction iwdQ generalizing queue with
  | nil => exact ⟨queue, rfl, rfl, by simp⟩
  | cons tmpE iwdQ ih =>
    rw [List.length_cons] at hroom
    obtain ⟨queue₁, hsend, hcapacity, hitems⟩ := Channel.send_leaves (q := queue) (a := tmpE) (by omega)
    obtain ⟨queue₂, hrest, hcapacity', hitems'⟩ := ih queue₁ (by
      rw [hitems, hcapacity, List.length_append, List.length_singleton]
      omega)
    refine ⟨queue₂, ?_, hcapacity'.trans hcapacity, ?_⟩
    · rw [reinsert, if_neg (by simp), hsend, Option.bind_some, hrest]
    · rw [hitems', hitems, List.append_assoc, List.singleton_append]

theorem reinsert_leaves (lastE : Event ρ) (iwdQ : List (Event ρ)) (queue : Queue ρ)
    (hroom : queue.items.length + iwdQ.length < queue.capacity) :
    Channel.Leaves
      ((reinsert lastE iwdQ false queue).bind fun (inserted, queue) => if inserted then some queue else queue.send lastE)
      queue.capacity (queue.items ++ iwdQ.orderedInsert Sooner lastE) := by
  induction iwdQ generalizing queue with
  | nil =>
    simpa [reinsert] using Channel.send_leaves (q := queue) (a := lastE) (by simpa using hroom)
  | cons tmpE iwdQ ih =>
    rw [List.length_cons] at hroom
    by_cases hsooner : lastE.delay < tmpE.delay
    · obtain ⟨queue₁, hlast, hcapacity₁, hitems₁⟩ := Channel.send_leaves (q := queue) (a := lastE) (by omega)
      obtain ⟨queue₂, hsend, hcapacity₂, hitems₂⟩ := Channel.send_leaves (q := queue₁) (a := tmpE) (by
        rw [hitems₁, hcapacity₁, List.length_append, List.length_singleton]
        omega)
      obtain ⟨queue₃, hrest, hcapacity₃, hitems₃⟩ := reinsert_inserted lastE iwdQ queue₂ (by
        rw [hitems₂, hcapacity₂, hitems₁, hcapacity₁]
        simp only [List.length_append, List.length_singleton]
        omega)
      rw [reinsert, if_pos ⟨hsooner, rfl⟩, hlast, Option.bind_some, hsend, Option.bind_some, hrest]
      refine ⟨queue₃, rfl, by rw [hcapacity₃, hcapacity₂, hcapacity₁], ?_⟩
      rw [hitems₃, hitems₂, hitems₁, List.orderedInsert_cons_of_le Sooner _ (show Sooner lastE tmpE from hsooner)]
      simp
    · obtain ⟨queue₁, hsend, hcapacity, hitems⟩ := Channel.send_leaves (q := queue) (a := tmpE) (by omega)
      have h := ih queue₁ (by
        rw [hitems, hcapacity, List.length_append, List.length_singleton]
        omega)
      rw [hitems, hcapacity] at h
      rw [reinsert, if_neg (by simp [hsooner]), hsend, List.orderedInsert_of_not_le Sooner _ (show ¬Sooner lastE tmpE from hsooner)]
      simpa using h

/-- A send puts its event behind the last one that is due no later. -/
theorem insertWithDelay_leaves {size : Nat} {queue : Queue ρ} {l : List (Event ρ)} {lastE : Event ρ}
    (hitems : queue.items = l ++ [lastE]) (hsize : queue.capacity ≤ size + 1) :
    Channel.Leaves (insertWithDelay size queue) queue.capacity (l.orderedInsert Sooner lastE) := by
  have hlen : queue.len = l.length + 1 := by rw [Channel.len, hitems, List.length_append, List.length_singleton]
  have hbound := queue.bounded
  rw [← Channel.len, hlen] at hbound
  by_cases hmore : 1 < queue.len
  · obtain ⟨queue₁, hmove, hcapacity₁, hitems₁⟩ := moveOver_eq size [] hitems (by simp; omega)
    obtain ⟨queue₂, hreceive, hcapacity₂, hitems₂⟩ := Channel.receive_eq hitems₁
    have h := reinsert_leaves lastE l queue₂ (by
      rw [hitems₂, hcapacity₂, hcapacity₁, List.length_nil]
      omega)
    rw [hitems₂, hcapacity₂, hcapacity₁, List.nil_append] at h
    have hcount : queue.len - 1 = l.length := by omega
    have hempty : queue₂.len = 0 := by rw [Channel.len, hitems₂, List.length_nil]
    simp only [insertWithDelay, if_pos hmore, hcount, hmove, Option.bind_some, hreceive, List.nil_append, if_pos hempty]
    exact h
  · obtain rfl : l = [] := List.length_eq_zero_iff.mp (by omega)
    rw [insertWithDelay, if_neg hmore]
    exact ⟨queue, rfl, rfl, hitems⟩

theorem advanceTime_leaves (increment : Int) (queue : Queue ρ) :
    Channel.Leaves (advanceTime increment queue) queue.capacity
      (queue.items.map fun tmpE =>
        if increment ≤ tmpE.delay then { tmpE with delay := tmpE.delay - increment } else tmpE) :=
  Channel.around_all queue fun _ => rfl

theorem removePending_leaves (invoker : Int) (queue : Queue ρ) :
    Channel.Leaves (removePendingEventsFromInvokerOnQueue invoker queue) queue.capacity
      (queue.items.filter fun tmpE => !pending invoker tmpE) := by
  rw [← List.filterMap_eq_filter]
  exact Channel.turns_len queue

/-- Sorted by delay, and by the order of their sends where the delays are equal. -/
def Before (a b : Event (Nat × ρ)) : Prop := a.delay < b.delay ∨ a.delay = b.delay ∧ a.rest.1 < b.rest.1

instance : DecidableRel (Before : Event (Nat × ρ) → Event (Nat × ρ) → Prop) := fun _ _ => inferInstanceAs (Decidable (_ ∨ _))

def Ordered (queue : Queue (Nat × ρ)) : Prop := queue.items.Pairwise Before

instance (queue : Queue (Nat × ρ)) : Decidable (Ordered queue) := inferInstanceAs (Decidable (List.Pairwise _ _))

theorem Ordered.nodup {queue : Queue (Nat × ρ)} (h : Ordered queue) : queue.items.Nodup := by
  apply List.Pairwise.imp _ h
  rintro a b hab rfl
  unfold Before at hab
  omega

theorem pairwise_orderedInsert {l : List (Event (Nat × ρ))} {lastE : Event (Nat × ρ)} (hl : l.Pairwise Before)
    (hlast : ∀ e ∈ l, e.rest.1 < lastE.rest.1) : (l.orderedInsert Sooner lastE).Pairwise Before := by
  induction l with
  | nil => simp
  | cons e l ih =>
    obtain ⟨hhead, htail⟩ := List.pairwise_cons.mp hl
    by_cases hsooner : Sooner lastE e
    · rw [List.orderedInsert_cons_of_le _ _ hsooner, List.pairwise_cons]
      refine ⟨?_, hl⟩
      intro b hb
      unfold Sooner at hsooner
      rcases List.mem_cons.mp hb with rfl | hb
      · exact .inl hsooner
      · rcases hhead b hb with hlt | ⟨heq, _⟩
        · exact .inl (by omega)
        · exact .inl (by omega)
    · rw [List.orderedInsert_of_not_le _ _ hsooner, List.pairwise_cons]
      refine ⟨?_, ih htail fun b hb => hlast b (List.mem_cons_of_mem e hb)⟩
      intro b hb
      rcases (List.mem_orderedInsert Sooner).mp hb with rfl | hb
      · have hserial := hlast e List.mem_cons_self
        unfold Sooner at hsooner
        unfold Before
        omega
      · exact hhead b hb

theorem pairwise_advance {l : List (Event (Nat × ρ))} {increment : Int} (hl : l.Pairwise Before)
    (hdue : ∀ e ∈ l, increment ≤ e.delay) :
    (l.map fun tmpE => if increment ≤ tmpE.delay then { tmpE with delay := tmpE.delay - increment } else tmpE).Pairwise
      Before := by
  rw [List.pairwise_map]
  apply List.Pairwise.imp_of_mem _ hl
  intro a b ha hb hab
  rw [if_pos (hdue a ha), if_pos (hdue b hb)]
  unfold Before at hab ⊢
  dsimp only
  omega

theorem determineSmallestDelay_le (d : Int) (queue : Queue ρ) : determineSmallestDelay d queue ≤ d := by
  unfold determineSmallestDelay
  split
  · exact le_refl d
  · split <;> omega

theorem foldl_determine_le (queues : List (Queue ρ)) (d : Int) : queues.foldl determineSmallestDelay d ≤ d := by
  induction queues generalizing d with
  | nil => exact le_refl d
  | cons queue queues ih => exact (ih _).trans (determineSmallestDelay_le d queue)

theorem foldl_determine_head {queues : List (Queue ρ)} {queue : Queue ρ} (h : queue ∈ queues) (d : Int) {e : Event ρ}
    {l : List (Event ρ)} (hitems : queue.items = e :: l) : queues.foldl determineSmallestDelay d ≤ e.delay := by
  induction queues generalizing d with
  | nil => cases h
  | cons queue' queues ih =>
    rcases List.mem_cons.mp h with rfl | h
    · refine (foldl_determine_le queues _).trans ?_
      simp only [determineSmallestDelay, hitems]
      split <;> omega
    · exact ih h _

theorem le_delay_of_ordered {queues : List (Queue (Nat × ρ))} {queue : Queue (Nat × ρ)} (h : queue ∈ queues)
    (hordered : Ordered queue) (d : Int) {e : Event (Nat × ρ)} (he : e ∈ queue.items) :
    queues.foldl determineSmallestDelay d ≤ e.delay := by
  cases hitems : queue.items with
  | nil => rw [hitems] at he; cases he
  | cons first l =>
    have hfirst := foldl_determine_head h d hitems
    rw [Ordered, hitems, List.pairwise_cons] at hordered
    rw [hitems] at he
    rcases List.mem_cons.mp he with rfl | he
    · exact hfirst
    · rcases hordered.1 e he with hlt | ⟨heq, _⟩
      · omega
      · omega

namespace System

/-- What holds of every queue. -/
structure Sound (iwdSize sent : Nat) (queue : Queue (Nat × ρ)) : Prop where
  ordered : Ordered queue
  fits : queue.capacity ≤ iwdSize + 1
  stamped : ∀ e ∈ queue.items, e.rest.1 < sent

def Inv (s : System ρ) : Prop := ∀ queue ∈ s.queues, Sound s.iwdSize s.sent queue

theorem Sound.filter {iwdSize sent : Nat} {queue queue' : Queue (Nat × ρ)} {p : Event (Nat × ρ) → Bool}
    (h : Sound iwdSize sent queue) (hcapacity : queue'.capacity = queue.capacity) (hitems : queue'.items = queue.items.filter p) :
    Sound iwdSize sent queue' where
  ordered := by
    rw [Ordered, hitems]
    exact h.ordered.filter p
  fits := hcapacity ▸ h.fits
  stamped := by
    intro e he
    rw [hitems] at he
    exact h.stamped e (List.mem_filter.mp he).1

theorem of_onQueue {s s' : System ρ} {i : Nat} {f : Queue (Nat × ρ) → Option (Queue (Nat × ρ))}
    (h : s.onQueue i f = some s') :
    ∃ queue queue', s.queues[i]? = some queue ∧ f queue = some queue' ∧ s' = { s with queues := s.queues.set i queue' } := by
  rw [onQueue, Option.bind_eq_some_iff] at h
  obtain ⟨queue, hqueue, h⟩ := h
  obtain ⟨queue', hf, rfl⟩ := Option.map_eq_some_iff.mp h
  exact ⟨queue, queue', hqueue, hf, rfl⟩

theorem Inv.set {s : System ρ} (h : s.Inv) {i : Nat} {queue' : Queue (Nat × ρ)} {sent : Nat} (hsent : s.sent ≤ sent)
    (hqueue : Sound s.iwdSize sent queue') :
    Inv { s with queues := s.queues.set i queue', sent := sent } := by
  intro queue hmem
  rcases List.mem_or_eq_of_mem_set hmem with hmem | rfl
  · have hsound := h queue hmem
    exact ⟨hsound.ordered, hsound.fits, fun e he => (hsound.stamped e he).trans_le hsent⟩
  · exact hqueue

theorem foldl_max_le (l : List Nat) (b : Nat) : b ≤ l.foldl max b ∧ ∀ n ∈ l, n ≤ l.foldl max b := by
  induction l generalizing b with
  | nil => simp
  | cons m l ih =>
    obtain ⟨hb, hl⟩ := ih (max b m)
    rw [List.foldl_cons]
    refine ⟨by omega, ?_⟩
    intro n hn
    rcases List.mem_cons.mp hn with rfl | hn
    · omega
    · exact hl n hn

theorem inv_start (externalQueueLengths : List Nat) : (start externalQueueLengths : System ρ).Inv := by
  intro queue hqueue
  obtain ⟨n, hn, rfl⟩ := List.mem_map.mp hqueue
  have hmax := (foldl_max_le externalQueueLengths 1).2 n hn
  refine ⟨List.Pairwise.nil, ?_, by simp [Channel.empty]⟩
  show n + 6 ≤ externalQueueLengths.foldl max 1 + 6 - 1 + 1
  omega

/-- The events `cancelSendIdOnQueue` is for. -/
def Matches (sendIdentifier source : Int) (e : Event ρ) : Prop :=
  e.sendid = sendIdentifier ∧ e.origin = source ∧ e.delay ≠ 0

/-- The events `removePendingEventsFromInvokerOnQueue` is for. -/
def Delayed (invoker : Int) (e : Event ρ) : Prop := e.invokeid = invoker ∧ e.delay ≠ 0

instance (sendIdentifier source : Int) (e : Event ρ) : Decidable (Matches sendIdentifier source e) :=
  inferInstanceAs (Decidable (_ ∧ _ ∧ _))

instance (invoker : Int) (e : Event ρ) : Decidable (Delayed invoker e) := inferInstanceAs (Decidable (_ ∧ _))

theorem not_cancelled (sendIdentifier source : Int) :
    (fun e : Event ρ => !cancelled sendIdentifier source e) = fun e => decide ¬Matches sendIdentifier source e := by
  funext e
  rw [cancelled, Bool.not_not, ← Bool.decide_or, ← Bool.decide_or, decide_eq_decide, Matches]
  tauto

theorem not_pending (invoker : Int) :
    (fun e : Event ρ => !pending invoker e) = fun e => decide ¬Delayed invoker e := by
  funext e
  rw [pending, Bool.not_not, Bool.false_or, ← Bool.decide_or, decide_eq_decide, Delayed]
  tauto

/-- An operation takes these events from a queue, leaves the others in their order, and changes nothing else. -/
def Removes (s : System ρ) (op : Operation ρ) (i : Nat) (p : Event (Nat × ρ) → Prop) [DecidablePred p] : Prop :=
  ∀ queue, s.queues[i]? = some queue → ∃ queue', s.step op = some { s with queues := s.queues.set i queue' } ∧
    queue'.capacity = queue.capacity ∧ queue'.items = queue.items.filter fun e => ¬p e

def Exact (s : System ρ) : Operation ρ → Prop
  | .cancelSendIdOnQueue sendIdentifier source i =>
    s.Removes (.cancelSendIdOnQueue sendIdentifier source i) i (Matches sendIdentifier source)
  | .removePendingEventsFromInvokerOnQueue invoker i =>
    s.Removes (.removePendingEventsFromInvokerOnQueue invoker i) i (Delayed invoker)
  | _ => True

/-- Of the queue a cancellation goes through, at most the last event matches, or the first half and nothing else. -/
def CancelsWhole (s : System ρ) : Operation ρ → Prop
  | .cancelSendIdOnQueue sendIdentifier source i =>
    ∀ queue, s.queues[i]? = some queue → Channel.Whole (fun e => decide ¬Matches sendIdentifier source e) queue.items
  | _ => True

theorem removes_iff {s : System ρ} {op : Operation ρ} {i : Nat} {f : Queue (Nat × ρ) → Option (Queue (Nat × ρ))}
    (hop : s.step op = s.onQueue i f) (p : Event (Nat × ρ) → Prop) [DecidablePred p] :
    s.Removes op i p ↔
      ∀ queue, s.queues[i]? = some queue → Channel.Leaves (f queue) queue.capacity (queue.items.filter fun e => ¬p e) := by
  apply forall_congr'
  intro queue
  apply forall_congr'
  intro hqueue
  have hi : i < s.queues.length := (List.getElem?_eq_some_iff.mp hqueue).1
  rw [hop, onQueue, hqueue, Option.bind_some]
  constructor
  · rintro ⟨queue', hmap, hcapacity, hitems⟩
    obtain ⟨queue'', hf, heq⟩ := Option.map_eq_some_iff.mp hmap
    have hsame : queue'' = queue' := by
      have hset := congrArg (fun s : System ρ => s.queues[i]?) heq
      simpa [hi] using hset
    exact ⟨queue', hsame ▸ hf, hcapacity, hitems⟩
  · rintro ⟨queue', hf, hcapacity, hitems⟩
    exact ⟨queue', by rw [hf]; rfl, hcapacity, hitems⟩

theorem exact_remove (s : System ρ) (invoker : Int) (i : Nat) :
    s.Exact (.removePendingEventsFromInvokerOnQueue invoker i) := by
  refine (removes_iff rfl (Delayed invoker)).mpr ?_
  intro queue _
  rw [← not_pending]
  exact removePending_leaves invoker queue

theorem exact_cancel_iff {s : System ρ} (hs : ∀ queue ∈ s.queues, Ordered queue) (sendIdentifier source : Int) (i : Nat) :
    s.Exact (.cancelSendIdOnQueue sendIdentifier source i) ↔
      s.CancelsWhole (.cancelSendIdOnQueue sendIdentifier source i) := by
  refine (removes_iff rfl (Matches sendIdentifier source)).trans ?_
  apply forall_congr'
  intro queue
  apply forall_congr'
  intro hqueue
  rw [cancelSendIdOnQueue, not_cancelled]
  exact Channel.around_filter_iff (hs queue (List.mem_of_getElem? hqueue)).nodup

theorem exact_iff {s : System ρ} (hs : ∀ queue ∈ s.queues, Ordered queue) (op : Operation ρ) :
    s.Exact op ↔ s.CancelsWhole op := by
  cases op with
  | send | receive | advanceTime => exact Iff.rfl
  | cancelSendIdOnQueue sendIdentifier source i => exact exact_cancel_iff hs sendIdentifier source i
  | removePendingEventsFromInvokerOnQueue invoker i => exact iff_of_true (exact_remove s invoker i) trivial

theorem Inv.removes {s s' : System ρ} (h : s.Inv) {op : Operation ρ} {i : Nat}
    {f : Queue (Nat × ρ) → Option (Queue (Nat × ρ))} (hop : s.step op = s.onQueue i f) {p : Event (Nat × ρ) → Prop}
    [DecidablePred p] (hremoves : s.Removes op i p) (hstep : s.step op = some s') : s'.Inv := by
  obtain ⟨queue, _, hqueue, _, _⟩ := of_onQueue (hop ▸ hstep)
  obtain ⟨queue', hstep', hcapacity, hitems⟩ := hremoves queue hqueue
  rw [hstep] at hstep'
  cases hstep'
  exact h.set (Nat.le_refl _) ((h queue (List.mem_of_getElem? hqueue)).filter hcapacity hitems)

theorem Inv.send {s s' : System ρ} (h : s.Inv) {i : Nat} {event : Event ρ} (hstep : s.step (.send i event) = some s') :
    s'.Inv := by
  obtain ⟨s₁, honQueue, rfl⟩ := Option.map_eq_some_iff.mp hstep
  obtain ⟨queue, queue', hqueue, hf, rfl⟩ := of_onQueue honQueue
  have hsound := h queue (List.mem_of_getElem? hqueue)
  obtain ⟨queue₁, hsend, hinsert⟩ := Option.bind_eq_some_iff.mp hf
  obtain ⟨hcapacity₁, hitems₁⟩ := Channel.of_send hsend
  obtain ⟨_, hinsert', hcapacity, hitems⟩ := insertWithDelay_leaves hitems₁ (hcapacity₁ ▸ hsound.fits)
  rw [hinsert] at hinsert'
  cases hinsert'
  refine h.set (Nat.le_succ _) ⟨?_, ?_, ?_⟩
  · rw [Ordered, hitems]
    exact pairwise_orderedInsert hsound.ordered hsound.stamped
  · rw [hcapacity, hcapacity₁]
    exact hsound.fits
  · intro e he
    rw [hitems] at he
    rcases (List.mem_orderedInsert Sooner).mp he with rfl | he
    · exact Nat.lt_succ_self _
    · exact (hsound.stamped e he).trans (Nat.lt_succ_self _)

theorem Inv.receive {s s' : System ρ} (h : s.Inv) {i : Nat} (hstep : s.step (.receive i) = some s') : s'.Inv := by
  obtain ⟨queue, queue', hqueue, hf, rfl⟩ := of_onQueue hstep
  have hsound := h queue (List.mem_of_getElem? hqueue)
  obtain ⟨⟨e, _⟩, hreceive, rfl⟩ := Option.map_eq_some_iff.mp hf
  obtain ⟨hcapacity, hitems⟩ := Channel.of_receive hreceive
  refine h.set (Nat.le_refl _) ⟨?_, hcapacity ▸ hsound.fits, ?_⟩
  · have hordered := hsound.ordered
    rw [Ordered, hitems] at hordered
    exact (List.pairwise_cons.mp hordered).2
  · intro e' he'
    apply hsound.stamped e'
    rw [hitems]
    exact List.mem_cons_of_mem e he'

theorem exists_of_mem_mapM {α β : Type} {f : α → Option β} {l : List α} {m : List β} (h : l.mapM f = some m) {b : β}
    (hb : b ∈ m) : ∃ a ∈ l, f a = some b := by
  induction l generalizing m with
  | nil =>
    cases h
    cases hb
  | cons a l ih =>
    rw [List.mapM_cons] at h
    obtain ⟨b', ha, h⟩ := Option.bind_eq_some_iff.mp h
    obtain ⟨m', hm, h⟩ := Option.bind_eq_some_iff.mp h
    cases h
    rcases List.mem_cons.mp hb with rfl | hb
    · exact ⟨a, List.mem_cons_self, ha⟩
    · obtain ⟨a', ha', hf⟩ := ih hm hb
      exact ⟨a', List.mem_cons_of_mem a ha', hf⟩

theorem Inv.advanceTime {s s' : System ρ} (h : s.Inv) (hstep : s.step .advanceTime = some s') : s'.Inv := by
  rw [step] at hstep
  split at hstep
  · obtain ⟨queues, hmap, rfl⟩ := Option.map_eq_some_iff.mp hstep
    intro queue' hqueue'
    obtain ⟨queue, hmem, hadvance⟩ := exists_of_mem_mapM hmap hqueue'
    have hsound := h queue hmem
    obtain ⟨_, hadvance', hcapacity, hitems⟩ := advanceTime_leaves s.smallestDelay queue
    rw [hadvance] at hadvance'
    cases hadvance'
    refine ⟨?_, hcapacity ▸ hsound.fits, ?_⟩
    · rw [Ordered, hitems]
      exact pairwise_advance hsound.ordered fun e he => le_delay_of_ordered hmem hsound.ordered _ he
    · intro e' he'
      rw [hitems] at he'
      obtain ⟨e, he, rfl⟩ := List.mem_map.mp he'
      have hstamp := hsound.stamped e he
      split
      · exact hstamp
      · exact hstamp
  · cases hstep
    exact h

/-- Every operation keeps the queues in order; a cancellation, where it goes through the whole queue. -/
theorem Inv.step {s s' : System ρ} (h : s.Inv) {op : Operation ρ} (hop : s.CancelsWhole op) (hstep : s.step op = some s') :
    s'.Inv := by
  have hexact := (exact_iff (fun queue hqueue => (h queue hqueue).ordered) op).mpr hop
  cases op with
  | send i event => exact h.send hstep
  | receive i => exact h.receive hstep
  | advanceTime => exact h.advanceTime hstep
  | cancelSendIdOnQueue sendIdentifier source i => exact h.removes rfl hexact hstep
  | removePendingEventsFromInvokerOnQueue invoker i => exact h.removes rfl hexact hstep

theorem run_append (s : System ρ) (ops ops' : List (Operation ρ)) :
    s.run (ops ++ ops') = (s.run ops).bind fun s => s.run ops' := by
  induction ops generalizing s with
  | nil => rfl
  | cons op ops ih =>
    rw [List.cons_append, run, run, Option.bind_assoc]
    congr 1
    funext s'
    exact ih s'

/-- The queues stay in order along a run whose cancellations go through whole queues. -/
theorem Inv.run {s₀ : System ρ} (h₀ : s₀.Inv) {ops : List (Operation ρ)}
    (hops : ∀ pre op s, pre ++ [op] <+: ops → s₀.run pre = some s → s.CancelsWhole op) {s : System ρ}
    (hrun : s₀.run ops = some s) : s.Inv := by
  induction ops using List.reverseRecOn generalizing s with
  | nil =>
    cases hrun
    exact h₀
  | append_singleton ops op ih =>
    rw [run_append] at hrun
    obtain ⟨s₁, hrun₁, hstep⟩ := Option.bind_eq_some_iff.mp hrun
    have hinv : s₁.Inv := ih (fun pre op' s hpre => hops pre op' s (hpre.trans (List.prefix_append _ _))) hrun₁
    refine hinv.step (hops ops op s₁ List.prefix_rfl hrun₁) ?_
    simpa [System.run] using hstep

/-- The queues are in order after every operation of a run and its cancellations and removals are exact if and only if its
cancellations go through whole queues. -/
theorem queues_ordered_iff (externalQueueLengths : List Nat) (ops : List (Operation ρ)) :
    ((∀ pre s, pre <+: ops → (start externalQueueLengths).run pre = some s → ∀ queue ∈ s.queues, Ordered queue) ∧
      ∀ pre op s, pre ++ [op] <+: ops → (start externalQueueLengths).run pre = some s → s.Exact op) ↔
    ∀ pre op s, pre ++ [op] <+: ops → (start externalQueueLengths).run pre = some s → s.CancelsWhole op := by
  constructor
  · rintro ⟨hordered, hexact⟩ pre op s hpre hrun
    have hs := hordered pre s ((List.prefix_append _ _).trans hpre) hrun
    exact (exact_iff hs op).mp (hexact pre op s hpre hrun)
  · intro hwhole
    have hinv : ∀ pre s, pre <+: ops → (start externalQueueLengths).run pre = some s → s.Inv := by
      intro pre s hpre hrun
      exact (inv_start externalQueueLengths).run (fun pre' op s' h => hwhole pre' op s' (h.trans hpre)) hrun
    refine ⟨fun pre s hpre hrun queue hqueue => (hinv pre s hpre hrun queue hqueue).ordered, ?_⟩
    intro pre op s hpre hrun
    have hs := hinv pre s ((List.prefix_append _ _).trans hpre) hrun
    exact (exact_iff (fun queue hqueue => (hs queue hqueue).ordered) op).mpr (hwhole pre op s hpre hrun)

/-- Three delayed events, of which the first and the last one are cancelled. -/
def threeSends : List (Operation Unit) :=
  [.send 0 ⟨1, 1, 7, 0, 0, ()⟩, .send 0 ⟨2, 2, 8, 0, 0, ()⟩, .send 0 ⟨3, 3, 7, 0, 0, ()⟩, .cancelSendIdOnQueue 7 0 0]

/-- One of the two stays, and stands in front of the event that is due before it. -/
theorem threeSends_out_of_order :
    ((start [1]).run threeSends).map (fun s => s.queues.map fun queue => queue.items.map fun e => (e.sendid, e.delay)) =
      some [[(7, 3), (8, 2)]] ∧
    ¬((∀ pre s, pre <+: threeSends → (start [1]).run pre = some s → ∀ queue ∈ s.queues, Ordered queue) ∧
      ∀ pre op s, pre ++ [op] <+: threeSends → (start [1]).run pre = some s → s.Exact op) := by
  refine ⟨by decide +kernel, ?_⟩
  rintro ⟨hordered, _⟩
  have hend : (((start [1]).run threeSends).any fun s => s.queues.all fun queue => decide (Ordered queue)) = false := by
    decide +kernel
  cases hrun : (start [1]).run threeSends with
  | none =>
    have hsome : ((start [1]).run threeSends).isSome = true := by decide +kernel
    rw [hrun] at hsome
    cases hsome
  | some s =>
    rw [hrun] at hend
    have hall : s.queues.all (fun queue => decide (Ordered queue)) = true := by
      rw [List.all_eq_true]
      intro queue hqueue
      exact decide_eq_true (hordered threeSends s List.prefix_rfl hrun queue hqueue)
    simp [hall] at hend

end System

end ChartToPromela

end Uscxml
