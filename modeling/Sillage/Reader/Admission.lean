import Sillage.Foundation.Traced
import Sillage.Reader.Floor
import Sillage.Reader.Replay

/-!
# Who is connected

A call that brings a sound request is admitted under the lock of the registry, if the limits
leave room for it. Then the channel and the task of the customer are made, and the task takes
the entry off the registry on every way out. A run is a list of acts of any number of calls,
each between two points at which somebody else can come in; a lock is taken and released
within one act.

What the clients, the clock, the shutdown signal and the replays do is left open, and so is
whether a channel can be made with a capacity, which is up to the library. The registry keeps
of an entry what admission and removal read.
-/

namespace Sillage

open LittleEndian

namespace Admission

/-- Concurrency caps applied at admission time. -/
structure ConnectionLimits where
  maxConnectionsTotal : Nat
  maxConnectionsPerToken : Nat

/-- An entry of the registry. -/
structure CustomerHandle where
  customerId : String
  client : ClientId
deriving DecidableEq

/-- An account filter of a request, with the predicates that are refused. -/
structure AccountsRequest where
  filter : SubscribeRequestFilterAccounts
  filters : Nat
  nonemptyTxnSignature : Option Bool

/-- What is read of a request. Of what is not served it is the number alone. -/
structure SubscribeRequest where
  blocks : Nat
  entry : Nat
  transactionsStatus : Nat
  accountsDataSlice : Nat
  transactions : List (String × SubscribeRequestFilterTransactions)
  accounts : List (String × AccountsRequest)
  blocksMeta : List (String × SubscribeRequestFilterBlocksMeta)
  fromSlot : Option Nat

/-- The first account filter with a predicate that is refused. -/
def refusedFilter : List (String × AccountsRequest) → Option String
  | [] => none
  | (_, account) :: rest =>
      if 0 < account.filters then some "account memcmp/datasize filters are not yet supported"
      else if account.nonemptyTxnSignature.isSome then
        some "nonempty_txn_signature filter is not yet supported"
      else refusedFilter rest

/-- The filters of a first message, or the status that it is turned down with. -/
def parseSubscribeRequest (req : SubscribeRequest) : Except Status SubscriptionFilters :=
  if 0 < req.blocks then .error ⟨.invalidArgument, "blocks subscription is not supported"⟩
  else if 0 < req.entry then .error ⟨.invalidArgument, "entry subscription is not supported"⟩
  else if 0 < req.transactionsStatus then
    .error ⟨.invalidArgument, "transactions_status subscription is not supported"⟩
  else if 0 < req.accountsDataSlice then
    .error ⟨.invalidArgument, "accounts_data_slice is not supported"⟩
  else if req.transactions.isEmpty && req.accounts.isEmpty && req.blocksMeta.isEmpty then
    .error ⟨.invalidArgument,
      "subscription must specify at least one of transactions, accounts, or blocks_meta " ++
        "(slots and entry updates are not served)"⟩
  else
    match refusedFilter req.accounts with
    | some message => .error ⟨.invalidArgument, message⟩
    | none => .ok
        { transactions := req.transactions
          accounts := req.accounts.map (fun account => (account.1, account.2.filter))
          blocksMeta := req.blocksMeta
          fromSlot := req.fromSlot }

/-- What comes as the first message of a call within five seconds. -/
inductive FirstMessage where
  | timedOut
  | failed (error : String)
  | closed
  | request (req : SubscribeRequest)

/-- The filters that a call asks for. -/
def firstRequest : FirstMessage → Except Status SubscriptionFilters
  | .timedOut =>
      .error ⟨.deadlineExceeded, "did not receive first SubscribeRequest within 5s"⟩
  | .failed error => .error ⟨.internal, "inbound stream error: " ++ error⟩
  | .closed =>
      .error ⟨.invalidArgument, "client closed stream before sending first request"⟩
  | .request req => parseSubscribeRequest req

/-- The next identity, and the counter behind it, which wraps around. -/
def nextCustomerId (counter : Nat) : String × Nat :=
  ("customer-" ++ toString counter, (counter + 1) % u64Bound)

/-- Register a customer if the limits leave room for it. -/
def admitHandle (limits : ConnectionLimits) (customers : List CustomerHandle) (handle : CustomerHandle) :
    Except Status (List CustomerHandle) :=
  if limits.maxConnectionsTotal ≤ customers.length then
    .error ⟨.resourceExhausted,
      "server is at its connection limit (" ++ toString limits.maxConnectionsTotal ++ ")"⟩
  else if handle.client ≠ .anonymous ∧ limits.maxConnectionsPerToken ≤
      (customers.filter (fun customer => customer.client = handle.client)).length then
    .error ⟨.resourceExhausted,
      "token is at its connection limit (" ++ toString limits.maxConnectionsPerToken ++ ")"⟩
  else .ok (customers ++ [handle])

/-- The registry without the entries of an identity. -/
def removeFromRegistry (customers : List CustomerHandle) (handle : CustomerHandle) :
    List CustomerHandle :=
  customers.filter (fun customer => customer.customerId ≠ handle.customerId)

/-- The status for a replay that cannot be planned. -/
def reject (display : IndexError → String) : PlanError → Status
  | .fromSlotTooOld requested firstAvailable =>
      ⟨.outOfRange, "from_slot " ++ toString requested ++
        " is older than the oldest available slot " ++ toString firstAvailable ++
        "; query SubscribeReplayInfo for the current first_available"⟩
  | .noChunksAvailable =>
      ⟨.unavailable, "no chunks available locally for the requested streams"⟩
  | .other error => ⟨.internal, "replay planning failed: " ++ display error⟩

/-- How far a call has come. It is registered from its admission on, and its task runs from
planning to the removal of its entry. -/
inductive Phase where
  | waiting
  | parsed (filters : SubscriptionFilters)
  | admitted (filters : SubscriptionFilters)
  | planning (filters : SubscriptionFilters)
  | rejecting (status : Status)
  | serving (plan : ReplayPlan)
  | stopping
  | leaving (stats : Option ReplayStats)
  | refused (status : Status)
  | abandoned
  | panicked
  | finished

namespace Phase

/-- The registry is to have an entry for the call. -/
def registered : Phase → Bool
  | .admitted _ => true
  | .planning _ => true
  | .rejecting _ => true
  | .serving _ => true
  | .stopping => true
  | .leaving _ => true
  | _ => false

/-- Nothing is left of the call. -/
def ended : Phase → Bool
  | .refused _ => true
  | .abandoned => true
  | .panicked => true
  | .finished => true
  | _ => false

/-- Whether the task of a call has come to its end. -/
def isFinished : Phase → Bool
  | .finished => true
  | _ => false

end Phase

/-- What a task that serves a replay waits for. A ping is answered; other requests are
ignored. -/
inductive Inbound where
  | shutdown
  | replayEnded (stats : Option ReplayStats)
  | ping (answered : Bool)
  | unsupported
  | closed
  | failed

/-- What the task does then. A replay that has ended by itself is not waited for again. -/
def serve (plan : ReplayPlan) : Inbound → Phase
  | .shutdown => .stopping
  | .replayEnded stats => .leaving stats
  | .ping answered => if answered then .serving plan else .stopping
  | .unsupported => .serving plan
  | .closed => .stopping
  | .failed => .stopping

/-- What can happen to a call. A caller can go away as long as the call is not admitted. -/
inductive CallEvent where
  | received (message : FirstMessage)
  | gone
  | locked
  | opened
  | planned (catalog : ChunkCatalog) (cache : IndexCache)
  | inbound (event : Inbound)
  | joined (stats : Option ReplayStats)
  | removed

/-- The channel and the task of a customer are made. -/
def CallEvent.isOpening : CallEvent → Bool
  | .opened => true
  | _ => false

/-- What a service is made with: its configuration, what its replays share, the capacities
with which a channel can be made, and the texts of errors. -/
structure Service where
  reader : Reader
  authTokens : List String
  limits : ConnectionLimits
  subscriptionChannelCapacity : Nat
  hasChannel : Nat → Bool
  display : IndexError → String

namespace Service

variable (service : Service)

/-- One act of a call, on the registry and on the call itself. -/
def advance (customers : List CustomerHandle) (handle : CustomerHandle) :
    Phase → CallEvent → Option (List CustomerHandle × Phase)
  | .waiting, .received message =>
      match firstRequest message with
      | .error status => some (customers, .refused status)
      | .ok filters => some (customers, .parsed filters)
  | .waiting, .gone => some (customers, .abandoned)
  | .parsed _, .gone => some (customers, .abandoned)
  | .parsed filters, .locked =>
      match admitHandle service.limits customers handle with
      | .error status => some (customers, .refused status)
      | .ok customers => some (customers, .admitted filters)
  | .admitted filters, .opened =>
      if service.hasChannel service.subscriptionChannelCapacity then
        some (customers, .planning filters)
      else some (customers, .panicked)
  | .planning filters, .planned catalog cache =>
      match service.reader.planReplay catalog filters cache filters.fromSlot with
      | .error error => some (customers, .rejecting (reject service.display error))
      | .ok (plan, _) => some (customers, .serving plan)
  | .serving plan, .inbound event => some (customers, serve plan event)
  | .stopping, .joined stats => some (customers, .leaving stats)
  | .rejecting _, .removed => some (removeFromRegistry customers handle, .finished)
  | .leaving _, .removed => some (removeFromRegistry customers handle, .finished)
  | _, _ => none

end Service

/-- A call that has got an identity. -/
structure Call where
  handle : CustomerHandle
  phase : Phase

/-- The counter of identities, the registry, and all calls in the order of their
identities. -/
structure Connections where
  counter : Nat
  customers : List CustomerHandle
  calls : List Call

/-- A call begins, or something happens to one that has begun. -/
inductive Act where
  | subscribe (metadata : MetadataMap)
  | call (k : Nat) (event : CallEvent)

namespace Service

variable (service : Service)

/-- One act, if it can take place. Without a valid token a call gets no identity. -/
def act (s : Connections) : Act → Option Connections
  | .subscribe metadata =>
      match validateAuth service.authTokens metadata with
      | .error _ => some s
      | .ok client =>
          let (customerId, counter) := nextCustomerId s.counter
          some { s with counter, calls := s.calls ++ [⟨⟨customerId, client⟩, .waiting⟩] }
  | .call k event => do
      let call ← s.calls[k]?
      let (customers, phase) ← service.advance s.customers call.handle call.phase event
      some { s with customers, calls := s.calls.set k { call with phase } }

end Service

/-- The entries that the registry is to have: those of the calls that are registered. -/
def handlesOf (calls : List Call) : List CustomerHandle :=
  (calls.filter (fun call => call.phase.registered)).map Call.handle

/-- The identities of the calls that have not ended. -/
def openIds (calls : List Call) : List String :=
  (calls.filter (fun call => !call.phase.ended)).map (fun call => call.handle.customerId)

/-- The registry is within the limits and has one entry for each registered call, and no
others. -/
structure Accounted (service : Service) (s : Connections) : Prop where
  total : s.customers.length ≤ service.limits.maxConnectionsTotal
  perToken : ∀ idx, (s.customers.filter (fun customer => customer.client = .token idx)).length ≤
    service.limits.maxConnectionsPerToken
  registered : s.customers.Perm (handlesOf s.calls)

/-- An act that a service is fit for: a new identity is not that of a call which has not
ended, and a channel can be made. -/
def Fit (service : Service) (s : Connections) : Act → Prop
  | .subscribe _ => (nextCustomerId s.counter).1 ∉ openIds s.calls
  | .call _ event =>
      event.isOpening = true → service.hasChannel service.subscriptionChannelCapacity = true

/-- Whether a service is fit for an act can be looked up. -/
instance (service : Service) (s : Connections) : (a : Act) → Decidable (Fit service s a)
  | .subscribe _ => inferInstanceAs (Decidable (_ ∉ _))
  | .call _ _ => inferInstanceAs (Decidable (_ → _))

/-- An act that takes place. -/
structure Step (service : Service) (s : Connections) (a : Act) (s' : Connections) : Prop where
  done : service.act s a = some s'
  fit : Fit service s a

/-- The registry changes in two ways only: a call that finds room enters its entry, and the
task of a registered call takes out its own entry and ends. -/
structure Changes (s : Connections) (a : Act) (s' : Connections) : Prop where
  subscribed : ∀ metadata, a = .subscribe metadata → s'.customers = s.customers
  refused : ∀ k event call status, a = .call k event → s'.calls[k]? = some call →
    call.phase = .refused status → s'.customers = s.customers
  locked : ∀ k call, a = .call k .locked → s.calls[k]? = some call →
    s'.customers = s.customers ∨ s'.customers = s.customers ++ [call.handle]
  removed : ∀ k, a = .call k .removed → ∃ call, s.calls[k]? = some call ∧
    call.phase.registered = true ∧ s.customers.Perm (call.handle :: s'.customers) ∧
    s'.calls[k]? = some { call with phase := .finished }
  others : ∀ k event, a = .call k event → event ≠ .locked → event ≠ .removed →
    s'.customers = s.customers

/-- A registered call has not ended. -/
theorem Phase.not_ended {phase : Phase} (registered : phase.registered = true) :
    phase.ended = false := by
  cases phase <;> first | rfl | cases registered

section

variable {service : Service} {customers customers' : List CustomerHandle} {handle : CustomerHandle}
  {phase phase' : Phase} {event : CallEvent} {s s' : Connections}

/-- What an act of a call does: it leaves the registry and what is registered as they are, it
enters its entry, it takes it out, or it panics. -/
inductive Advances (service : Service) (customers : List CustomerHandle) (handle : CustomerHandle)
    (phase : Phase) (event : CallEvent) (customers' : List CustomerHandle) (phase' : Phase) :
    Prop where
  | stays (other : event ≠ .removed) (begun : phase.ended = false) (same : customers' = customers)
      (registered : phase'.registered = phase.registered) (unfinished : phase'.isFinished = false)
  | enters (filters : SubscriptionFilters) (isLocked : event = .locked)
      (isParsed : phase = .parsed filters)
      (room : admitHandle service.limits customers handle = .ok customers')
      (admitted : phase' = .admitted filters)
  | leaves (isRemoved : event = .removed) (registered : phase.registered = true)
      (removed : customers' = removeFromRegistry customers handle) (finished : phase' = .finished)
  | panics (isOpened : event = .opened)
      (impossible : service.hasChannel service.subscriptionChannelCapacity = false)
      (begun : phase.ended = false) (same : customers' = customers) (panicked : phase' = .panicked)

/-- Whatever comes in, a call that is served stays registered, and its task goes on. -/
theorem serve_registered (plan : ReplayPlan) (event : Inbound) :
    (serve plan event).registered = true ∧ (serve plan event).isFinished = false := by
  cases event with
  | ping answered => cases answered <;> exact ⟨rfl, rfl⟩
  | shutdown => exact ⟨rfl, rfl⟩
  | replayEnded stats => exact ⟨rfl, rfl⟩
  | unsupported => exact ⟨rfl, rfl⟩
  | closed => exact ⟨rfl, rfl⟩
  | failed => exact ⟨rfl, rfl⟩

/-- An event that can happen to a call does one of these things. -/
theorem advance_cases
    (done : service.advance customers handle phase event = some (customers', phase')) :
    Advances service customers handle phase event customers' phase' := by
  unfold Service.advance at done
  split at done
  · split at done
    · cases done
      exact .stays nofun rfl rfl rfl rfl
    · cases done
      exact .stays nofun rfl rfl rfl rfl
  · cases done
    exact .stays nofun rfl rfl rfl rfl
  · cases done
    exact .stays nofun rfl rfl rfl rfl
  · split at done
    · cases done
      exact .stays nofun rfl rfl rfl rfl
    · next room =>
      cases done
      exact .enters _ rfl rfl room rfl
  · split at done
    · cases done
      exact .stays nofun rfl rfl rfl rfl
    · next impossible =>
      cases done
      exact .panics rfl (by simpa using impossible) rfl rfl rfl
  · split at done
    · cases done
      exact .stays nofun rfl rfl rfl rfl
    · cases done
      exact .stays nofun rfl rfl rfl rfl
  · next plan inbound =>
    cases done
    obtain ⟨registered, unfinished⟩ := serve_registered plan inbound
    exact .stays nofun rfl rfl registered unfinished
  · cases done
    exact .stays nofun rfl rfl rfl rfl
  · cases done
    exact .leaves rfl rfl rfl rfl
  · cases done
    exact .leaves rfl rfl rfl rfl
  · cases done

/-- A customer that is admitted comes behind the others, where the limits leave room. -/
theorem admitHandle_ok {limits : ConnectionLimits}
    (room : admitHandle limits customers handle = .ok customers') :
    customers' = customers ++ [handle] ∧ customers.length < limits.maxConnectionsTotal ∧
      (handle.client ≠ .anonymous →
        (customers.filter (fun customer => customer.client = handle.client)).length <
          limits.maxConnectionsPerToken) := by
  rw [admitHandle] at room
  split at room
  · cases room
  · next below =>
    split at room
    · cases room
    · next few =>
      cases room
      refine ⟨rfl, Nat.lt_of_not_le below, fun named => ?_⟩
      exact Nat.lt_of_not_le (fun many => few ⟨named, many⟩)

/-- An identity that one entry has is taken off the registry with this entry alone. -/
theorem removeFromRegistry_perm {others : List CustomerHandle}
    (entries : customers.Perm (handle :: others))
    (distinct : ((handle :: others).map CustomerHandle.customerId).Nodup) :
    (removeFromRegistry customers handle).Perm others := by
  have apart : ∀ other ∈ others, decide (other.customerId ≠ handle.customerId) = true := by
    intro other member
    have notSame := (List.nodup_cons.mp distinct).1
    refine decide_eq_true (fun same => notSame ?_)
    exact List.mem_map.mpr ⟨other, member, same⟩
  have kept := entries.filter (fun customer => decide (customer.customerId ≠ handle.customerId))
  rwa [List.filter_cons_of_neg (by simp), List.filter_eq_self.mpr apart] at kept

/-- A call among the others, and what becomes of them when it changes. -/
theorem calls_split {calls : List Call} {k : Nat} {call : Call} (found : calls[k]? = some call)
    (call' : Call) : ∃ before after, calls = before ++ call :: after ∧
      calls.set k call' = before ++ call' :: after := by
  obtain ⟨inside, same⟩ := List.getElem?_eq_some_iff.mp found
  obtain ⟨before, after, whole, -, changed⟩ :=
    @List.exists_of_set _ k call' calls inside
  exact ⟨before, after, same ▸ whole, changed⟩

/-- A call adds its entry if it is registered. -/
theorem handlesOf_cons (call : Call) (calls : List Call) : handlesOf (call :: calls) =
    (if call.phase.registered then [call.handle] else []) ++ handlesOf calls := by
  rw [handlesOf, List.filter_cons]
  split <;> rfl

/-- Entries of calls come one after the other. -/
theorem handlesOf_append (before after : List Call) :
    handlesOf (before ++ after) = handlesOf before ++ handlesOf after := by
  simp [handlesOf]

/-- A call adds its identity unless it has ended. -/
theorem openIds_cons (call : Call) (calls : List Call) : openIds (call :: calls) =
    (if call.phase.ended then [] else [call.handle.customerId]) ++ openIds calls := by
  rw [openIds, List.filter_cons]
  cases call.phase.ended <;> rfl

/-- Identities of calls come one after the other. -/
theorem openIds_append (before after : List Call) :
    openIds (before ++ after) = openIds before ++ openIds after := by
  simp [openIds]

/-- Registered calls have not ended. -/
theorem handlesOf_open (calls : List Call) :
    ((handlesOf calls).map CustomerHandle.customerId).Sublist (openIds calls) := by
  rw [handlesOf, List.map_map]
  refine List.Sublist.map _ (List.monotone_filter_right calls (fun call registered => ?_))
  rw [Phase.not_ended registered]
  rfl

/-- An act of a call advances that call and leaves the others alone. -/
theorem act_call {k : Nat} (done : service.act s (.call k event) = some s') :
    ∃ call, s.calls[k]? = some call ∧ ∃ customers phase,
      Advances service s.customers call.handle call.phase event customers phase ∧
      s' = { s with customers, calls := s.calls.set k { call with phase } } := by
  obtain ⟨call, found, later⟩ := Option.bind_eq_some_iff.mp done
  obtain ⟨made, advanced, same⟩ := Option.bind_eq_some_iff.mp later
  obtain ⟨customers, phase⟩ := made
  cases same
  exact ⟨call, found, customers, phase, advance_cases advanced, rfl⟩

/-- A call that begins is refused without an identity, or waits with a new one. -/
theorem act_subscribe {metadata : MetadataMap}
    (done : service.act s (.subscribe metadata) = some s') :
    s' = s ∨ ∃ client, s' =
      { s with
        counter := (nextCustomerId s.counter).2
        calls := s.calls ++ [⟨⟨(nextCustomerId s.counter).1, client⟩, .waiting⟩] } := by
  rw [Service.act] at done
  split at done
  · cases done
    exact .inl rfl
  · next client _ =>
    cases done
    exact .inr ⟨client, rfl⟩

/-- The registry is accounted for, and no two calls that have not ended share an identity. -/
structure Sound (service : Service) (s : Connections) : Prop where
  accounted : Accounted service s
  distinct : (openIds s.calls).Nodup

/-- A call that goes on keeps its identity or gives it up. -/
theorem openIds_sublist (before after : List Call) {call : Call} (begun : call.phase.ended = false)
    (phase : Phase) : (openIds (before ++ { call with phase } :: after)).Sublist
      (openIds (before ++ call :: after)) := by
  rw [openIds_append, openIds_append, openIds_cons, openIds_cons, begun]
  refine List.Sublist.append_left (List.Sublist.append_right ?_ _) _
  split
  · exact List.nil_sublist _
  · exact List.Sublist.refl _

/-- A call that waits with a new identity leaves all accounted for. -/
theorem Sound.waits (sound : Sound service s) {counter : Nat} {handle : CustomerHandle}
    (fresh : handle.customerId ∉ openIds s.calls) :
    Sound service { s with counter, calls := s.calls ++ [⟨handle, .waiting⟩] } := by
  obtain ⟨⟨total, perToken, registered⟩, distinct⟩ := sound
  refine ⟨⟨total, perToken, ?_⟩, ?_⟩
  · rw [handlesOf_append]
    simpa [handlesOf, Phase.registered] using registered
  · have ids : openIds (s.calls ++ [⟨handle, .waiting⟩]) =
        openIds s.calls ++ [handle.customerId] := by
      rw [openIds_append]
      rfl
    rw [ids, List.nodup_append]
    refine ⟨distinct, List.nodup_singleton _, fun id member other same => ?_⟩
    rw [List.mem_singleton.mp same]
    exact fun equal => fresh (equal ▸ member)

/-- A call that goes on without the registry leaves all accounted for. -/
theorem Sound.stays (sound : Sound service s) {k : Nat} {call : Call}
    (found : s.calls[k]? = some call) (begun : call.phase.ended = false)
    (registered : phase'.registered = call.phase.registered) :
    Sound service { s with calls := s.calls.set k { call with phase := phase' } } := by
  obtain ⟨before, after, whole, changed⟩ := calls_split found { call with phase := phase' }
  obtain ⟨⟨total, perToken, entries⟩, distinct⟩ := sound
  rw [changed]
  rw [whole] at entries distinct
  refine ⟨⟨total, perToken, ?_⟩, distinct.sublist (openIds_sublist before after begun phase')⟩
  dsimp only
  rw [handlesOf_append, handlesOf_cons] at entries ⊢
  rwa [registered]

/-- A call that finds room and is entered leaves all accounted for. -/
theorem Sound.enters (sound : Sound service s) {k : Nat} {call : Call}
    (found : s.calls[k]? = some call) {filters : SubscriptionFilters}
    (isParsed : call.phase = .parsed filters)
    (room : admitHandle service.limits s.customers call.handle = .ok customers') :
    Sound service
      { s with
        customers := customers'
        calls := s.calls.set k { call with phase := .admitted filters } } := by
  obtain ⟨before, after, whole, changed⟩ :=
    calls_split found { call with phase := .admitted filters }
  obtain ⟨⟨total, perToken, entries⟩, distinct⟩ := sound
  obtain ⟨rfl, below, few⟩ := admitHandle_ok room
  have begun : call.phase.ended = false := by rw [isParsed]; rfl
  rw [changed]
  rw [whole] at entries distinct
  refine ⟨⟨?_, fun idx => ?_, ?_⟩,
    distinct.sublist (openIds_sublist before after begun (.admitted filters))⟩
  · rw [List.length_append]
    exact below
  · rw [List.filter_append, List.length_append]
    by_cases own : call.handle.client = .token idx
    · have under := few (by rw [own]; exact nofun)
      rw [own] at under
      have one : ([call.handle].filter (fun customer => customer.client = .token idx)).length = 1 := by
        simp [own]
      rw [one]
      exact under
    · simpa [own] using perToken idx
  · dsimp only
    rw [handlesOf_append, handlesOf_cons] at entries ⊢
    rw [isParsed] at entries
    have entered := (entries.append_right [call.handle]).trans (List.perm_append_singleton _ _)
    exact entered.trans List.perm_middle.symm

/-- The entry of a registered call is taken off the registry, and no other one. -/
theorem Sound.removes (sound : Sound service s) {before after : List Call} {call : Call}
    (whole : s.calls = before ++ call :: after) (isRegistered : call.phase.registered = true) :
    s.customers.Perm (call.handle :: (handlesOf before ++ handlesOf after)) ∧
      (removeFromRegistry s.customers call.handle).Perm (handlesOf before ++ handlesOf after) := by
  obtain ⟨⟨-, -, entries⟩, distinct⟩ := sound
  have named := (handlesOf_open s.calls).nodup distinct
  have shape : handlesOf s.calls = handlesOf before ++ call.handle :: handlesOf after := by
    rw [whole, handlesOf_append, handlesOf_cons, if_pos isRegistered]
    rfl
  rw [shape] at entries named
  have front := entries.trans List.perm_middle
  refine ⟨front, removeFromRegistry_perm front ?_⟩
  exact (List.perm_middle.map CustomerHandle.customerId).nodup_iff.mp named

/-- A task that takes out its entry and ends leaves all accounted for. -/
theorem Sound.leaves (sound : Sound service s) {k : Nat} {call : Call}
    (found : s.calls[k]? = some call) (isRegistered : call.phase.registered = true) :
    Sound service
      { s with
        customers := removeFromRegistry s.customers call.handle
        calls := s.calls.set k { call with phase := .finished } } := by
  obtain ⟨before, after, whole, changed⟩ := calls_split found { call with phase := .finished }
  have removed := (sound.removes whole isRegistered).2
  obtain ⟨⟨total, perToken, -⟩, distinct⟩ := sound
  have fewer : (removeFromRegistry s.customers call.handle).Sublist s.customers :=
    List.filter_sublist
  rw [changed]
  rw [whole] at distinct
  refine ⟨⟨fewer.length_le.trans total,
    fun idx => ((fewer.filter _).length_le).trans (perToken idx), ?_⟩,
    distinct.sublist (openIds_sublist before after (Phase.not_ended isRegistered) .finished)⟩
  dsimp only
  rw [handlesOf_append, handlesOf_cons]
  exact removed

/-- Every act that takes place leaves all accounted for. -/
theorem Sound.step {a : Act} (sound : Sound service s) (step : Step service s a s') :
    Sound service s' := by
  obtain ⟨done, fit⟩ := step
  cases a with
  | subscribe metadata =>
    rcases act_subscribe done with rfl | ⟨client, rfl⟩
    · exact sound
    · exact sound.waits fit
  | call k event =>
    obtain ⟨call, found, customers, phase, advances, rfl⟩ := act_call done
    cases advances with
    | stays other begun same registered unfinished =>
      rw [same]
      exact sound.stays found begun registered
    | enters filters isLocked isParsed room admitted =>
      rw [admitted]
      exact sound.enters found isParsed room
    | leaves isRemoved registered removed finished =>
      rw [removed, finished]
      exact sound.leaves found registered
    | panics isOpened impossible begun same panicked =>
      rw [isOpened] at fit
      exact absurd (impossible.symm.trans (fit rfl)) nofun

/-- An act that leaves the registry as it is and is no removal. -/
theorem Changes.keeps {a : Act} (same : s'.customers = s.customers)
    (other : ∀ k, a ≠ .call k .removed) : Changes s a s' :=
  ⟨fun _ _ => same, fun _ _ _ _ _ _ _ => same, fun _ _ _ _ => .inl same,
    fun k isRemoval => absurd isRemoval (other k), fun _ _ _ _ _ => same⟩

/-- An act that takes place changes the registry for an entry of its own call only. -/
theorem Sound.changes {a : Act} (sound : Sound service s) (step : Step service s a s') :
    Changes s a s' := by
  obtain ⟨done, fit⟩ := step
  cases a with
  | subscribe metadata =>
    refine .keeps ?_ (fun _ same => nomatch same)
    rcases act_subscribe done with rfl | ⟨client, rfl⟩ <;> rfl
  | call k event =>
    obtain ⟨call, found, customers, phase, advances, rfl⟩ := act_call done
    have inside : k < s.calls.length := (List.getElem?_eq_some_iff.mp found).1
    have now : (s.calls.set k { call with phase })[k]? = some { call with phase } :=
      List.getElem?_set_self inside
    -- the call itself is not refused when its entry is entered or taken out
    have notRefused : (∀ status, phase ≠ .refused status) →
        ∀ k' event' call' status, Act.call k event = .call k' event' →
          (s.calls.set k { call with phase })[k']? = some call' →
          call'.phase = .refused status → customers = s.customers := by
      intro never k' event' call' status same found' refused
      obtain ⟨rfl, rfl⟩ := Act.call.inj same
      obtain rfl := Option.some.inj (now.symm.trans found')
      exact absurd refused (never status)
    cases advances with
    | stays other begun same registered unfinished =>
      exact .keeps same (fun j isRemoval => other (Act.call.inj isRemoval).2)
    | panics isOpened impossible begun same panicked =>
      refine .keeps same (fun j isRemoval => ?_)
      rw [isOpened] at isRemoval
      cases isRemoval
    | enters filters isLocked isParsed room admitted =>
      have entered := (admitHandle_ok room).1
      refine ⟨fun _ same => (nomatch same), notRefused (by simp [admitted]), ?_, ?_, ?_⟩
      · intro k' call' same found'
        obtain ⟨rfl, -⟩ := Act.call.inj same
        obtain rfl := Option.some.inj (found.symm.trans found')
        exact .inr entered
      · intro k' same
        rw [isLocked] at same
        cases same
      · intro k' event' same notLocked
        obtain ⟨-, rfl⟩ := Act.call.inj same
        exact absurd isLocked notLocked
    | leaves isRemoved registered removed finished =>
      obtain ⟨before, after, whole, -⟩ := calls_split found call
      obtain ⟨front, rest⟩ := sound.removes whole registered
      refine ⟨fun _ same => (nomatch same), notRefused (by simp [finished]), ?_, ?_, ?_⟩
      · intro k' call' same
        rw [isRemoved] at same
        cases same
      · intro k' same
        obtain ⟨rfl, -⟩ := Act.call.inj same
        rw [removed, finished]
        refine ⟨call, found, registered, front.trans (rest.symm.cons call.handle), ?_⟩
        exact List.getElem?_set_self inside
      · intro k' event' same notLocked notRemoved
        obtain ⟨-, rfl⟩ := Act.call.inj same
        exact absurd isRemoved notRemoved

/-- The task of a call takes its entry off the registry. -/
def isRemoval (k : Nat) : Act → Bool
  | .call j .removed => j = k
  | _ => false

/-- The task of a call has finished. -/
def finishedAt (s : Connections) (k : Nat) : Bool :=
  (s.calls[k]?).any (fun call => call.phase.isFinished)

/-- A call is finished when its task takes its entry off the registry, and stays so without
doing it again. -/
theorem Step.removals {a : Act} (step : Step service s a s') (k : Nat) :
    (isRemoval k a).toNat + (finishedAt s k).toNat = (finishedAt s' k).toNat := by
  obtain ⟨done, -⟩ := step
  cases a with
  | subscribe metadata =>
    rcases act_subscribe done with rfl | ⟨client, rfl⟩
    · exact Nat.zero_add _
    · have same : finishedAt { s with
          counter := (nextCustomerId s.counter).2
          calls := s.calls ++ [⟨⟨(nextCustomerId s.counter).1, client⟩, .waiting⟩] } k =
          finishedAt s k := by
        rw [finishedAt, finishedAt, List.getElem?_append]
        split
        · rfl
        · next beyond =>
          rw [List.getElem?_eq_none (Nat.le_of_not_lt beyond)]
          cases k - s.calls.length <;> rfl
      rw [same]
      exact Nat.zero_add _
  | call j event =>
    obtain ⟨call, found, customers, phase, advances, rfl⟩ := act_call done
    have inside : j < s.calls.length := (List.getElem?_eq_some_iff.mp found).1
    by_cases here : j = k
    · subst here
      have before : finishedAt s j = call.phase.isFinished := by rw [finishedAt, found]; rfl
      have after : finishedAt { s with
          customers
          calls := s.calls.set j { call with phase } } j = phase.isFinished := by
        rw [finishedAt, List.getElem?_set_self inside]
        rfl
      have begun : ∀ {phase : Phase}, phase.ended = false → phase.isFinished = false := by
        intro phase begun
        cases phase <;> first | rfl | cases begun
      rw [before, after]
      cases advances with
      | stays other isOpen same registered unfinished =>
        have notRemoval : isRemoval j (.call j event) = false := by
          cases event <;> first | rfl | exact absurd rfl other
        rw [notRemoval, begun isOpen, unfinished]
        rfl
      | enters filters isLocked isParsed room admitted =>
        rw [isLocked, isParsed, admitted]
        rfl
      | leaves isRemoved registered removed finished =>
        rw [isRemoved, begun (Phase.not_ended registered), finished]
        simp [isRemoval, Phase.isFinished]
      | panics isOpened impossible isOpen same panicked =>
        rw [isOpened, begun isOpen, panicked]
        rfl
    · have notRemoval : isRemoval k (.call j event) = false := by
        cases event <;> first | rfl | exact decide_eq_false here
      have same : finishedAt { s with
          customers
          calls := s.calls.set j { call with phase } } k = finishedAt s k := by
        rw [finishedAt, finishedAt, List.getElem?_set_ne here]
      rw [notRemoval, same]
      exact Nat.zero_add _

/-- How often the task of a call takes its entry off the registry along a run. -/
def removals (k : Nat) (moments : List (Act × Connections)) : Nat :=
  (moments.filter (fun moment => isRemoval k moment.1)).length

/-- Along a run the task of a call takes its entry off once if it comes to its end, and else not
at all. -/
theorem removals_path {moments : List (Act × Connections)} {last : Connections}
    (path : Path (Step service) s moments last) (k : Nat) :
    removals k moments + (finishedAt s k).toNat = (finishedAt last k).toNat := by
  induction path with
  | nil => exact Nat.zero_add _
  | cons step tail inductionHypothesis =>
    have first := step.removals k
    rw [removals, List.filter_cons]
    rw [removals] at inductionHypothesis
    split
    · next isRemoval =>
      rw [isRemoval, Bool.toNat_true] at first
      rw [List.length_cons]
      omega
    · next other =>
      rw [Bool.eq_false_iff.mpr other, Bool.toNat_false] at first
      omega

end

/-- Before the first call. -/
def start : Connections := { counter := 0, customers := [], calls := [] }

/-- A registry without calls has no entries. -/
theorem start_sound (service : Service) : Sound service start :=
  ⟨⟨Nat.zero_le _, fun _ => Nat.zero_le _, List.Perm.refl _⟩, List.nodup_nil⟩

/-- In every run in which new identities are those of no call that has not ended and channels
can be made, the registry is within its limits and holds exactly the entries of the registered
calls; an entry is taken off once, when the task of its call ends; and no act changes the
registry in another way than for the entry of its own call. -/
theorem registry_accounted (service : Service) {moments : List (Act × Connections)}
    {s : Connections} (run : Path (Step service) start moments s) :
    Accounted service s ∧
      (∀ k, removals k moments = (finishedAt s k).toNat) ∧
      ∀ a s', Step service s a s' → Changes s a s' := by
  have sound : Sound service s :=
    (run.invariant (fun _ _ _ sound step => sound.step step) (start_sound service)).1
  refine ⟨sound.accounted, fun k => ?_, fun a s' step => sound.changes step⟩
  have counted := removals_path run k
  have begins : finishedAt start k = false := rfl
  rwa [begins, Bool.toNat_false, Nat.add_zero] at counted

/-- Where no channel can be made, a customer that was admitted leaves an entry for which no task
is responsible. -/
theorem panic_unaccounted {service : Service} {s : Connections} (sound : Sound service s) {k : Nat}
    {call : Call} {filters : SubscriptionFilters} (found : s.calls[k]? = some call)
    (admitted : call.phase = .admitted filters)
    (impossible : service.hasChannel service.subscriptionChannelCapacity = false) :
    ∃ s', service.act s (.call k .opened) = some s' ∧ ¬ Accounted service s' := by
  refine ⟨{ s with calls := s.calls.set k { call with phase := .panicked } }, ?_, fun accounted => ?_⟩
  · simp only [Service.act, found, bind, Option.bind, admitted, Service.advance, impossible,
      Bool.false_eq_true, if_false]
  · obtain ⟨before, after, whole, changed⟩ := calls_split found { call with phase := .panicked }
    have entries := sound.accounted.registered.length_eq
    have left := accounted.registered.length_eq
    rw [whole, handlesOf_append, handlesOf_cons, admitted] at entries
    simp only [changed, handlesOf_append, handlesOf_cons] at left
    simp only [List.length_append, Phase.registered, if_true, Bool.false_eq_true, if_false,
      List.length_cons, List.length_nil] at entries left
    omega

/-- A service for one customer at a time who has the token, without any chunks. A channel can
be made with a positive capacity that the library has permits for. -/
def oneCustomer (capacity : Nat) : Service where
  reader :=
    { codecs := PlainCodecs.plain, files := fun _ => ∅, indexBudgetBytes := 0
      chunkBudgetBytes := 0, indexHeapBytes := fun _ => 0 }
  authTokens := ["secret"]
  limits := { maxConnectionsTotal := 1, maxConnectionsPerToken := 1 }
  subscriptionChannelCapacity := capacity
  hasChannel capacity := 0 < capacity ∧ capacity ≤ (u64Bound - 1) / 8
  display _ := "error"

/-- A catalog without chunks. -/
def noChunks : ChunkCatalog := ⟨fun _ => ∅, fun stream start entry held => by simp at held⟩

/-- The first message of a call that asks for all transactions. -/
def asksForAll : FirstMessage :=
  .request
    { blocks := 0, entry := 0, transactionsStatus := 0, accountsDataSlice := 0
      transactions := [("all", ⟨none, none, none, [], [], []⟩)], accounts := [], blocksMeta := []
      fromSlot := none }

/-- Metadata with a token in it. -/
def withToken : MetadataMap := ⟨some "secret", none⟩

/-- An act that can happen, and that the service is fit for, is a step. -/
theorem Step.of {service : Service} {s s' : Connections} (a : Act)
    (done : service.act s a = some s') (fit : Fit service s a) : Step service s a s' := ⟨done, fit⟩

/-- Of two calls that come together the second one is refused, and the first one, for whom
nothing can be planned, leaves nothing behind. -/
theorem registry_accounted_two : ∃ moments s,
    Path (Step (oneCustomer 1024)) start moments s ∧ moments.length = 9 ∧ s.calls.length = 2 ∧
      s.customers = [] ∧ Accounted (oneCustomer 1024) s ∧ removals 0 moments = 1 := by
  have run : ∃ moments s, Path (Step (oneCustomer 1024)) start moments s ∧ moments.length = 9 ∧
      s.calls.length = 2 ∧ s.customers = [] ∧ finishedAt s 0 = true :=
    ⟨_, _, .cons (.of (.subscribe withToken) rfl (by decide)) <|
      .cons (.of (.subscribe withToken) rfl (by decide)) <|
      .cons (.of (.call 0 (.received asksForAll)) rfl (by decide)) <|
      .cons (.of (.call 1 (.received asksForAll)) rfl (by decide)) <|
      .cons (.of (.call 0 .locked) rfl (by decide)) <|
      .cons (.of (.call 1 .locked) rfl (by decide)) <|
      .cons (.of (.call 0 .opened) rfl (by decide)) <|
      .cons (.of (.call 0 (.planned noChunks Lru.Cache.new)) rfl (by decide)) <|
      .cons (.of (.call 0 .removed) rfl (by decide)) <| .nil _, rfl, rfl, rfl, rfl⟩
  obtain ⟨moments, s, path, long, two, empty, finished⟩ := run
  obtain ⟨accounted, removed, -⟩ := registry_accounted (oneCustomer 1024) path
  exact ⟨moments, s, path, long, two, empty, accounted, by rw [removed, finished]; rfl⟩

/-- Without room in its channels a service panics behind the admission: nobody is connected,
and yet the registry is full, and the next call is refused. -/
theorem leakedEntry :
    ∃ s s', (([.subscribe withToken, .call 0 (.received asksForAll), .call 0 .locked,
        .call 0 .opened] : List Act).foldlM (oneCustomer 0).act start) = some s ∧
      (([.subscribe withToken, .call 1 (.received asksForAll), .call 1 .locked] :
        List Act).foldlM (oneCustomer 0).act s) = some s' ∧
      handlesOf s.calls = [] ∧ s.customers = [⟨"customer-0", .token 0⟩] ∧
      ¬ Accounted (oneCustomer 0) s ∧
      s'.calls[1]? = some ⟨⟨"customer-1", .token 0⟩,
        .refused ⟨.resourceExhausted, "server is at its connection limit (1)"⟩⟩ := by
  refine ⟨_, _, rfl, rfl, rfl, rfl, fun accounted => ?_, rfl⟩
  have entries := accounted.registered.length_eq
  revert entries
  decide

end Admission

end Sillage
