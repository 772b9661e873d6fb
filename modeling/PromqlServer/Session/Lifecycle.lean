/-!
The lifecycle of a session, by `begin_initialize`, `complete_initialize`, `shutdown` and
`terminate`, and the guard `ensure_active` in front of its handlers. The phase only moves forward: a
session is created, a client opens it, the client confirms, and it is shut down.
-/

namespace PromqlServer.Session

inductive Phase where
  | created
  | initializing
  | initialized
  | shutDown
  deriving DecidableEq, Repr

namespace Phase

def name : Phase → String
  | .created => "Created"
  | .initializing => "Initializing"
  | .initialized => "Initialized"
  | .shutDown => "ShutDown"

/-- Place of a phase in the order in which a session goes through them. -/
def rank : Phase → Nat
  | .created => 0
  | .initializing => 1
  | .initialized => 2
  | .shutDown => 3

/-- Messages about documents are handled between the handshake and the shutdown. -/
def isActive : Phase → Bool
  | .initializing | .initialized => true
  | .created | .shutDown => false

end Phase

/-- A method that is not valid in the phase in which it came. -/
structure PhaseError where
  method : String
  phase : Phase
  deriving DecidableEq, Repr

def PhaseError.message (e : PhaseError) : String :=
  e.method ++ " is not valid while the server is " ++ e.phase.name

/-- Error of a request, as the client gets it. -/
structure RpcError where
  code : Int
  message : String
  data : Option String := none
  deriving DecidableEq, Repr

namespace RpcError

def notReady : Int := -32002

def invalidRequestCode : Int := -32600

end RpcError

/-- A request that comes before the handshake is told so; any other one is just invalid. -/
def PhaseError.toRpc (e : PhaseError) : RpcError where
  code := if e.phase = .created then RpcError.notReady else RpcError.invalidRequestCode
  message := e.message

namespace Phase

/-- The phase `next`, if `method` is valid now. -/
def advance (now : Phase) (method : String) (valid : List Phase) (next : Phase) :
    Except PhaseError Phase :=
  if now ∈ valid then .ok next else .error ⟨method, now⟩

/-- The client opens the session. -/
def beginHandshake (now : Phase) : Except PhaseError Phase :=
  now.advance "initialize" [.created] .initializing

/-- The client confirms that it is ready. -/
def completeHandshake (now : Phase) : Except PhaseError Phase :=
  now.advance "initialized" [.initializing] .initialized

/-- The client asks for the end of the session. -/
def shutdown (now : Phase) : Except PhaseError Phase :=
  now.advance "shutdown" [.initializing, .initialized] .shutDown

/-- The session ends from outside, which is valid in every phase. -/
def terminate (_ : Phase) : Phase := .shutDown

/-- Guard of the methods outside the handshake. -/
def ensureActive (now : Phase) (method : String) : Except PhaseError Unit :=
  if now.isActive then .ok () else .error ⟨method, now⟩

theorem advance_eq_ok_iff {now next later : Phase} {method : String} {valid : List Phase} :
    now.advance method valid next = .ok later ↔ now ∈ valid ∧ next = later := by
  unfold advance
  split <;> simp_all

/-- A session never goes back. -/
theorem rank_lt_of_shutdown {now next : Phase} (h : now.shutdown = .ok next) :
    now.rank < next.rank := by
  obtain ⟨hmem, rfl⟩ := advance_eq_ok_iff.1 h
  simp only [List.mem_cons, List.not_mem_nil, or_false] at hmem
  rcases hmem with rfl | rfl <;> decide

end Phase

end PromqlServer.Session
