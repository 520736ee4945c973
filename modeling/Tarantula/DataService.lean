import Mathlib.Data.List.Perm.Basic
import Mathlib.Logic.Function.Basic
import Tarantula.LocalData
import Tarantula.Murmur3
import Tarantula.NodeRing

/-! The data service of a node and the write proxies. A proxy calls the primary and the
slaves of a record with one request object: in-process calls share its header, remote
calls work on a copy. -/

namespace Tarantula

/-- `REPLICA_MAX` and `RETRY_MAX`. -/
def replicaMax : Nat := 7
def retryMax : Nat := 3

structure Response where
  successful : Bool
  message : Option Fail
  data : List Data
  deriving DecidableEq, Repr

/-- What a call returns: the response, where `none` is nil, and the error. -/
structure Reply where
  resp : Option Response
  err : Option Fail
  deriving DecidableEq, Repr

/-- The store, the header of the request and the reply after a handler has run. -/
structure Served where
  db : Db
  header : Header
  reply : Reply

namespace DataService

def respond (d : Done) : Response :=
  match d.err with
  | some e => ⟨false, some e, []⟩
  | none => ⟨true, none, [⟨[], [], { (default : Header) with revision := d.header.revision }⟩]⟩

def serve (d : Done) : Served := ⟨d.db, d.header, ⟨some (respond d), d.err⟩⟩

section Handlers

variable (hash32 : Bytes → UInt32)

/-- The prefix of `Create` and `Reset`: the token of the key where the request has none. -/
def ringPrefixOf (req : Request) : UInt32 :=
  if req.ringPrefix = 0 then hash32 req.data.key else req.ringPrefix

def create (db : Db) (now : UInt64) (req : Request) : Served :=
  serve (LocalData.create db now ⟨ringPrefixOf hash32 req, req.data⟩)

def reset (db : Db) (now : UInt64) (req : Request) : Served :=
  serve (LocalData.reset db now ⟨ringPrefixOf hash32 req, req.data⟩)

end Handlers

/-- `Get` reads under the prefix of the request. -/
def get (db : Db) (req : Request) : Reply :=
  match LocalData.get db req with
  | .error e => ⟨some ⟨false, some e, []⟩, some e⟩
  | .ok d => ⟨some ⟨true, none, [d]⟩, none⟩

/-- `Update` and `Delete` compute the token and drop it. -/
def update (db : Db) (now : UInt64) (req : Request) : Served :=
  serve (LocalData.update db now ⟨req.ringPrefix, req.data⟩)

/-- `Delete` reports a failure in its response only. -/
def delete (db : Db) (_ : UInt64) (req : Request) : Served :=
  let d := LocalData.delete db ⟨req.ringPrefix, req.data⟩
  ⟨d.db, d.header, ⟨some (respond d), none⟩⟩

end DataService

/-- What becomes of a remote call. -/
inductive Link
  | up | noConn | requestLost | replyLost
  deriving DecidableEq, Repr

/-- What a proxy meets: the answers of the ring to its attempts, the fate of each call of
an attempt and the clock it runs at, and the order in which slaves are called that are
called concurrently. -/
structure Env where
  self : String
  hash32 : Bytes → UInt32
  ring : Nat → List Node
  link : Nat → Nat → Link
  clock : Nat → Nat → UInt64
  schedule : List Node → List Node
  schedule_perm : ∀ nodes, (schedule nodes).Perm nodes

/-- The stores of the nodes by endpoint, and the header object of the request. -/
structure World where
  stores : String → Db
  header : Header

abbrev Handler := Db → UInt64 → Request → Served

def Request.withHeader (req : Request) (h : Header) : Request :=
  { req with data := { req.data with header := h } }

namespace Env

/-- The gRPC client returns a nil response with every error. -/
def remote (env : Env) (handler : Handler) (noConn : Fail) (req : Request) (i j : Nat)
    (target : Node) (w : World) : World × Reply :=
  let s := handler (w.stores target.rpcEndpoint) (env.clock i j) (req.withHeader w.header)
  let applied := { w with stores := Function.update w.stores target.rpcEndpoint s.db }
  match env.link i j with
  | .noConn => (w, ⟨some ⟨false, some noConn, []⟩, some noConn⟩)
  | .requestLost => (w, ⟨none, some .transport⟩)
  | .replyLost => (applied, ⟨none, some .transport⟩)
  | .up => (applied, if s.reply.err.isSome then ⟨none, s.reply.err⟩ else s.reply)

def client (env : Env) (handler : Handler) (noConn : Fail) (req : Request) (i j : Nat)
    (target : Node) (w : World) : World × Reply :=
  if target.rpcEndpoint = env.self then
    let s := handler (w.stores env.self) (env.clock i j) (req.withHeader w.header)
    (⟨Function.update w.stores env.self s.db, s.header⟩, s.reply)
  else env.remote handler noConn req i j target w

def clientCreate (env : Env) := env.client (DataService.create env.hash32) .noTcpConnect
def clientUpdate (env : Env) := env.client DataService.update .connection
def clientDelete (env : Env) := env.client DataService.delete .connection

/-- Also a call to the node itself goes through the connection. -/
def clientReset (env : Env) := env.remote (DataService.reset env.hash32) .connection

abbrev Call := Nat → Nat → Node → World → World × Reply

/-- Calls whose replies are dropped, from the `j`-th one on. -/
def callEach (call : Call) (i : Nat) : Nat → List Node → World → World
  | _, [], w => w
  | j, n :: nodes, w => callEach call i (j + 1) nodes (call i j n w).1

/-- The loop that `runUpdate`, `runDelete` and `runReset` share. `none` is the use of a
nil response, or of the first node of an empty ring. -/
def runWrite (env : Env) (call : Call) (answer : Response → Option Fail → Response) :
    Nat → Nat → Option Fail → World → Option (World × Response)
  | 0, _, err, w => some (w, ⟨false, err, []⟩)
  | reties + 1, i, err, w =>
    match env.ring i with
    | [] => none
    | ringNode :: slaves =>
      match call i 0 ringNode w with
      | (_, ⟨none, _⟩) => none
      | (w, ⟨some resp, _⟩) =>
        if resp.successful then some (callEach call i 1 slaves w, answer resp err)
        else runWrite env call answer reties (i + 1) resp.message w

def runUpdate (env : Env) (req : Request) (stores : String → Db) : Option (World × Response) :=
  env.runWrite (env.clientUpdate req) (fun resp _ => resp) retryMax 0 none ⟨stores, req.data.header⟩

def runDelete (env : Env) (req : Request) (stores : String → Db) : Option (World × Response) :=
  env.runWrite (env.clientDelete req) (fun _ err => ⟨true, err, []⟩) retryMax 0 none ⟨stores, req.data.header⟩

def runReset (env : Env) (req : Request) (stores : String → Db) : Option (World × Response) :=
  env.runWrite (env.clientReset req) (fun _ err => ⟨true, err, []⟩) retryMax 0 none ⟨stores, req.data.header⟩

/-- An error of the primary is checked before its response, and the slaves are called
concurrently. -/
def createLoop (env : Env) (req : Request) :
    Nat → Nat → Option Fail → World → Option (World × Response)
  | 0, _, err, w => some (w, ⟨false, err, []⟩)
  | reties + 1, i, err, w =>
    match env.ring i with
    | [] => none
    | ringNode :: slaves =>
      match env.clientCreate req i 0 ringNode w with
      | (w, ⟨_, some _⟩) => createLoop env req reties (i + 1) err w
      | (_, ⟨none, none⟩) => none
      | (w, ⟨some resp, none⟩) =>
        if resp.successful then
          some (callEach (env.clientCreate req) i 1 (env.schedule slaves) w, ⟨true, err, []⟩)
        else createLoop env req reties (i + 1) resp.message w

def runCreate (env : Env) (req : Request) (stores : String → Db) : Option (World × Response) :=
  env.createLoop req retryMax 0 none ⟨stores, req.data.header⟩

end Env

end Tarantula
