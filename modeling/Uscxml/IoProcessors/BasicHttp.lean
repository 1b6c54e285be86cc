import Uscxml.Messages
import Uscxml.Lib.Fold

/-!
# Requests of the HTTP I/O processor

`BasicHTTPIOProcessor` keeps the requests it has sent in `_sendRequests`, under the send ids of their events, until they are
answered. An answer comes for a `URL` object, which is looked for among the values. Every request has an object of its own,
so that an object is a number here. The headers and the content of a request are left out.
-/

namespace Uscxml

/-- What comes back for a request: the status code of its header and the data of its URL, or an error of the transfer. -/
inductive HttpAnswer where
  | completed (statusCode : String) (url : Data)
  | failed (errorCode : Int)

/-- The members of `BasicHTTPIOProcessor`, the number of the next `URL` object, and the events it has enqueued. -/
structure BasicHTTPIOProcessor where
  url : String
  sendRequests : List (String × Nat × Event) := []
  newURL : Nat := 0
  internal : List Event := []
  external : List Event := []

namespace BasicHTTPIOProcessor

/-- `USCXML_IOPROC_BASICHTTP_TYPE`. -/
def basicHttpType : String := "http://www.w3.org/TR/scxml/#BasicHTTPEventProcessor"

/-- What `IOProcessorImpl::eventToSCXML` fills in. -/
def addressed (event : Event) (type origin : String) : Event :=
  { event with
    origin := if event.origin.length = 0 ∧ 0 < origin.length then origin else event.origin
    origintype := if event.origintype.length = 0 then type else event.origintype }

def eventToSCXML (event : Event) (type origin : String) (p : BasicHTTPIOProcessor) : BasicHTTPIOProcessor :=
  { p with external := p.external ++ [addressed event type origin] }

/-- `_sendRequests[sendid] = value`. -/
def putRequest (sendid : String) (value : Nat × Event) (requests : List (String × Nat × Event)) : List (String × Nat × Event) :=
  requests.filter (fun r => r.1 ≠ sendid) ++ [(sendid, value)]

/-- `BasicHTTPIOProcessor::eventFromSCXML`. A local target is waited for here, which makes no difference to the requests. -/
def eventFromSCXML (target : String) (event : Event) (p : BasicHTTPIOProcessor) : BasicHTTPIOProcessor :=
  if target.length = 0 then
    { p with internal := p.internal ++ [{ name := "error.communication", eventType := .platform }] }
  else { p with sendRequests := putRequest event.sendid (p.newURL, event) p.sendRequests, newURL := p.newURL + 1 }

def statusEvent (statusCode : String) (url : Data) : Event :=
  { name := "HTTP." ++ String.ofList (statusCode.toList.take 1) ++ "." ++ String.ofList (statusCode.toList.drop 1), data := url }

def failEvent : Event := { name := "error.communication" }

/-- `BasicHTTPIOProcessor::downloadCompleted`; `none` when its assertion fails. -/
def downloadCompleted (url : Nat) (statusCode : String) (data : Data) (p : BasicHTTPIOProcessor) :
    Option BasicHTTPIOProcessor :=
  match p.sendRequests.find? fun r => r.2.1 = url with
  | none => none
  | some _ =>
    let p := if 0 < statusCode.length then eventToSCXML (statusEvent statusCode data) basicHttpType p.url p else p
    some { p with sendRequests := p.sendRequests.eraseP fun r => r.2.1 = url }

def downloadFailed (url : Nat) (_errorCode : Int) (p : BasicHTTPIOProcessor) : Option BasicHTTPIOProcessor :=
  match p.sendRequests.find? fun r => r.2.1 = url with
  | none => none
  | some _ =>
    let p := eventToSCXML failEvent basicHttpType p.url p
    some { p with sendRequests := p.sendRequests.eraseP fun r => r.2.1 = url }

inductive Call where
  | eventFromSCXML (target : String) (event : Event)
  | answer (url : Nat) (answer : HttpAnswer)

def step (p : BasicHTTPIOProcessor) : Call → Option BasicHTTPIOProcessor
  | .eventFromSCXML target event => some (eventFromSCXML target event p)
  | .answer url (.completed statusCode data) => downloadCompleted url statusCode data p
  | .answer url (.failed errorCode) => downloadFailed url errorCode p

/-- The processor after some calls; `none` when an assertion failed. -/
def run (url : String) (calls : List Call) : Option BasicHTTPIOProcessor := calls.foldlM step { url := url }

/-! ### What the requests are -/

/-- The number of requests, those that are not answered yet, and the events that the answers of the others raise. -/
structure Book where
  made : Nat := 0
  pending : List (Nat × Event) := []
  raised : List Event := []

def eventOf : HttpAnswer → Event
  | .completed statusCode data => statusEvent statusCode data
  | .failed _ => failEvent

def Book.call (url : String) (b : Book) : Call → Book
  | .eventFromSCXML _ event => { b with made := b.made + 1, pending := b.pending ++ [(b.made, event)] }
  | .answer request answer =>
    { b with
      pending := b.pending.eraseP fun r => r.1 = request
      raised := b.raised ++ [addressed (eventOf answer) basicHttpType url] }

def book (url : String) (calls : List Call) : Book := calls.foldl (Book.call url) {}

/-- Sends to remote targets and answers, one at most for each request. -/
structure History where
  url : String
  calls : List Call
  remote : ∀ target event, Call.eventFromSCXML target event ∈ calls → target ≠ "" ∧ target ≠ url
  answered : ∀ i request answer, calls[i]? = some (.answer request answer) →
    request ∈ (book url (calls.take i)).pending.map (·.1)

/-- The processor has exactly the pending requests in its map, and has raised one event for each answer. -/
structure Keeps (b : Book) (p : BasicHTTPIOProcessor) : Prop where
  requests : p.sendRequests.map (·.2) = b.pending
  events : p.external = b.raised
  empty : b.pending = [] → p.sendRequests = []

/-- No request is sent under the id of one that is pending, and what is completed has a status code. -/
def Meets (p : BasicHTTPIOProcessor) : Call → Prop
  | .eventFromSCXML _ event => ∀ r ∈ p.sendRequests, r.1 ≠ event.sendid
  | .answer _ (.completed statusCode _) => statusCode ≠ ""
  | .answer _ (.failed _) => True

/-! ### One call -/

variable {b : Book} {p : BasicHTTPIOProcessor} {url : String}

theorem keeps_iff : Keeps b p ↔ p.sendRequests.map (·.2) = b.pending ∧ p.external = b.raised := by
  constructor
  · exact fun h => ⟨h.requests, h.events⟩
  · rintro ⟨hrequests, hevents⟩
    refine ⟨hrequests, hevents, ?_⟩
    intro hempty
    exact List.map_eq_nil_iff.mp (hrequests.trans hempty)

/-- A new request has taken the place of no other one exactly when its id is new. -/
theorem keeps_eventFromSCXML_iff {target : String} {event : Event} (h : Keeps b p) (hmade : p.newURL = b.made)
    (htarget : target ≠ "") :
    Keeps (b.call url (.eventFromSCXML target event)) (eventFromSCXML target event p) ↔
      ∀ r ∈ p.sendRequests, r.1 ≠ event.sendid := by
  have hlength : target.length ≠ 0 := fun h => htarget (String.length_eq_zero_iff.mp h)
  have hsent : eventFromSCXML target event p =
      { p with sendRequests := putRequest event.sendid (p.newURL, event) p.sendRequests, newURL := p.newURL + 1 } := if_neg hlength
  rw [keeps_iff, hsent]
  refine (and_iff_left h.events).trans ?_
  have hmap : (putRequest event.sendid (p.newURL, event) p.sendRequests).map (·.2) =
      (p.sendRequests.filter fun r => r.1 ≠ event.sendid).map (·.2) ++ [(b.made, event)] := by
    rw [putRequest, List.map_append, hmade]
    rfl
  show (putRequest event.sendid (p.newURL, event) p.sendRequests).map (·.2) = b.pending ++ [(b.made, event)] ↔ _
  rw [hmap, List.append_left_inj, ← h.requests]
  constructor
  · intro hsame r hr
    have hlengths := congrArg List.length hsame
    rw [List.length_map, List.length_map, List.length_filter_eq_length_iff] at hlengths
    exact of_decide_eq_true (hlengths r hr)
  · intro hnew
    rw [List.filter_eq_self.mpr fun r hr => decide_eq_true (hnew r hr)]

theorem map_eraseP_requests (h : Keeps b p) (request : Nat) :
    (p.sendRequests.eraseP fun r => r.2.1 = request).map (·.2) = b.pending.eraseP fun r => r.1 = request := by
  rw [← h.requests, List.eraseP_map]
  rfl

theorem exists_request (h : Keeps b p) {request : Nat} (hpending : request ∈ b.pending.map (·.1)) :
    ∃ r, (p.sendRequests.find? fun r => r.2.1 = request) = some r := by
  rw [← h.requests, List.map_map] at hpending
  obtain ⟨r, hr, hrequest⟩ := List.mem_map.mp hpending
  rw [← Option.isSome_iff_exists, List.find?_isSome]
  exact ⟨r, hr, decide_eq_true hrequest⟩

theorem keeps_answer_iff {request : Nat} {answer : HttpAnswer} (h : Keeps b p) (hurl : p.url = url)
    (hpending : request ∈ b.pending.map (·.1)) :
    (∃ p', step p (.answer request answer) = some p' ∧ Keeps (b.call url (.answer request answer)) p') ↔
      Meets p (.answer request answer) := by
  obtain ⟨r, hfind⟩ := exists_request h hpending
  have herase := map_eraseP_requests h request
  cases answer with
  | failed errorCode =>
    have hstep : step p (.answer request (.failed errorCode)) = some
        { eventToSCXML failEvent basicHttpType p.url p with
          sendRequests := p.sendRequests.eraseP fun r => r.2.1 = request } := by
      rw [step, downloadFailed, hfind]
      rfl
    refine iff_of_true ⟨_, hstep, keeps_iff.mpr ⟨herase, ?_⟩⟩ trivial
    rw [eventToSCXML, hurl, h.events]
    rfl
  | completed statusCode data =>
    by_cases hcode : statusCode = ""
    · have hstep : step p (.answer request (.completed statusCode data)) = some
          { p with sendRequests := p.sendRequests.eraseP fun r => r.2.1 = request } := by
        rw [step, downloadCompleted, hfind, hcode]
        rfl
      apply iff_of_false
      · rintro ⟨p', hp', hkeeps⟩
        obtain rfl := Option.some.inj (hstep.symm.trans hp')
        -- an event is missing
        have hlengths := congrArg List.length (h.events.symm.trans hkeeps.events)
        simp [Book.call] at hlengths
      · exact fun hmeets => hmeets hcode
    · have hpos : 0 < statusCode.length := Nat.pos_of_ne_zero fun h => hcode (String.length_eq_zero_iff.mp h)
      have hstep : step p (.answer request (.completed statusCode data)) = some
          { eventToSCXML (statusEvent statusCode data) basicHttpType p.url p with
            sendRequests := p.sendRequests.eraseP fun r => r.2.1 = request } := by
        rw [step, downloadCompleted, hfind]
        dsimp only
        rw [if_pos hpos]
        rfl
      refine iff_of_true ⟨_, hstep, keeps_iff.mpr ⟨herase, ?_⟩⟩ hcode
      rw [eventToSCXML, hurl, h.events]
      rfl

/-! ### Runs -/

theorem run_concat (url : String) (calls : List Call) (c : Call) :
    run url (calls ++ [c]) = (run url calls).bind fun p => step p c :=
  List.foldlM_concat _ _ calls c

theorem book_concat (url : String) (calls : List Call) (c : Call) :
    book url (calls ++ [c]) = (book url calls).call url c := List.foldl_concat ..

/-- The next object of the processor is the next one of the book. -/
theorem tracks_step {p' : BasicHTTPIOProcessor} {c : Call} (hmade : p.newURL = b.made) (hurl : p.url = url)
    (htarget : ∀ target event, c = .eventFromSCXML target event → target ≠ "") (hstep : step p c = some p') :
    p'.newURL = (b.call url c).made ∧ p'.url = url := by
  match c with
  | .eventFromSCXML target event =>
    have hlength : target.length ≠ 0 := fun h => htarget target event rfl (String.length_eq_zero_iff.mp h)
    obtain rfl := Option.some.inj hstep
    rw [eventFromSCXML, if_neg hlength]
    exact ⟨congrArg (· + 1) hmade, hurl⟩
  | .answer request (.failed errorCode) =>
    rw [step, downloadFailed] at hstep
    split at hstep
    · cases hstep
    · obtain rfl := Option.some.inj hstep
      exact ⟨hmade, hurl⟩
  | .answer request (.completed statusCode data) =>
    rw [step, downloadCompleted] at hstep
    split at hstep
    · cases hstep
    · obtain rfl := Option.some.inj hstep
      dsimp only
      split <;> exact ⟨hmade, hurl⟩

theorem tracks_run (h : History) {calls : List Call} (hpre : calls <+: h.calls) (hrun : run h.url calls = some p) :
    p.newURL = (book h.url calls).made ∧ p.url = h.url := by
  induction calls using List.reverseRecOn generalizing p with
  | nil =>
    obtain rfl := Option.some.inj hrun
    exact ⟨rfl, rfl⟩
  | append_singleton calls c ih =>
    rw [run_concat] at hrun
    obtain ⟨p₀, hp₀, hstep⟩ := Option.bind_eq_some_iff.mp hrun
    obtain ⟨hmade, hurl⟩ := ih ((List.prefix_append _ _).trans hpre) hp₀
    rw [book_concat]
    refine tracks_step hmade hurl ?_ hstep
    rintro target event rfl
    exact (h.remote target event (hpre.subset (by simp))).1

theorem keeps_step_iff (h : History) {calls : List Call} {c : Call} (hpre : calls ++ [c] <+: h.calls)
    (hrun : run h.url calls = some p) (hkeeps : Keeps (book h.url calls) p) :
    (∃ p', step p c = some p' ∧ Keeps ((book h.url calls).call h.url c) p') ↔ Meets p c := by
  obtain ⟨hmade, hurl⟩ := tracks_run h ((List.prefix_append _ _).trans hpre) hrun
  cases c with
  | eventFromSCXML target event =>
    have htarget := (h.remote target event (hpre.subset (by simp))).1
    have hiff : Keeps ((book h.url calls).call h.url (.eventFromSCXML target event)) (eventFromSCXML target event p) ↔
        ∀ r ∈ p.sendRequests, r.1 ≠ event.sendid := keeps_eventFromSCXML_iff hkeeps hmade htarget
    rw [Meets, ← hiff]
    simp [step]
  | answer request answer =>
    obtain ⟨rest, hrest⟩ := hpre
    have hpending := h.answered calls.length request answer (by simp [← hrest])
    have htake : h.calls.take calls.length = calls := by simp [← hrest]
    rw [htake] at hpending
    exact keeps_answer_iff hkeeps hurl hpending

/-- The map holds the pending requests and each answer has raised its event, in all states of a history, exactly when all of
its calls meet the condition. Then no assertion fails. -/
theorem keeps_iff_meets (h : History) :
    (∀ calls, calls <+: h.calls → ∃ p, run h.url calls = some p ∧ Keeps (book h.url calls) p) ↔
      ∀ calls c p, calls ++ [c] <+: h.calls → run h.url calls = some p → Meets p c := by
  apply List.foldlM_keeps_iff (keeps_iff.mpr ⟨rfl, rfl⟩)
  intro calls c p hpre hrun hkeeps
  rw [book_concat]
  exact keeps_step_iff h hpre hrun hkeeps

def sameSendid : History where
  url := "http://localhost:8080/chart"
  calls := [.eventFromSCXML "http://example.com/" { name := "event", sendid := "id" },
    .eventFromSCXML "http://example.com/" { name := "event", sendid := "id" },
    .answer 0 (.completed "200" Data.empty), .answer 1 (.completed "200" Data.empty)]
  remote := by
    intro target event hmem
    simp only [List.mem_cons, Call.eventFromSCXML.injEq, reduceCtorEq, List.not_mem_nil, or_false] at hmem
    obtain ⟨rfl, -⟩ | ⟨rfl, -⟩ := hmem <;> decide
  answered := by
    intro i request answer hcall
    match i with
    | 0 | 1 => cases hcall
    | 2 | 3 =>
      cases hcall
      decide
    | i + 4 => cases hcall

/-- The answer to the first of them finds no entry. -/
theorem sameSendid_asserts :
    ¬ ∀ calls, calls <+: sameSendid.calls → ∃ p, run sameSendid.url calls = some p ∧ Keeps (book sameSendid.url calls) p := by
  intro h
  obtain ⟨p, hp, -⟩ := h _ List.prefix_rfl
  cases hp

end BasicHTTPIOProcessor

end Uscxml
