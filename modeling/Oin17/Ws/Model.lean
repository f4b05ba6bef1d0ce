import Mathlib.Algebra.Order.Ring.Int
import Mathlib.Data.List.FinRange
import Oin17.Lib.Run
import Oin17.Ws.Mbuf

namespace Oin17.Ws
open Loop Memory

abbrev maxuconns : Nat := 16

/-- An index of `uconns`. -/
abbrev Conn := Fin maxuconns

/-- There is data to send. -/
def sSendreq : Nat := 0x01

structure Uconn where
  id : Int
  /-- The uqueue on which to send events. -/
  uq : Int
  /-- The connection of libwebsockets. -/
  ws : Option Nat
  st : Nat
  /-- The fragments buffer, and the current offset in it. -/
  fb : Buf
  fo : Nat
  /-- The incoming and the outgoing message queue. -/
  iq : Option Slot
  oq : Option Slot

inductive Phase where
  | connecting | established | closing
  deriving DecidableEq

/-- What libwebsockets keeps of a connection. -/
structure Wsi where
  /-- The user data it hands to the callbacks. -/
  user : Conn
  phase : Phase
  /-- A WRITEABLE callback is due. -/
  pending : Bool

def qnoteClosed : Nat := 1
def qnoteConn : Nat := 2
def qnoteRead : Nat := 4

/-- A triggered event: its flags are ORed to those already there (QNOTE_FFOR)
or replace them (QNOTE_FFCOPY). -/
structure Trigger where
  uq : Int
  ident : Int
  ffcopy : Bool
  fflags : Nat

structure State where
  uconns : Conn → Uconn
  pool : Pool
  /-- The connections of libwebsockets that were not destroyed yet. -/
  wsis : Nat → Option Wsi
  /-- How many there have been. -/
  nwsis : Nat
  triggers : List Trigger

def State.updConn (s : State) (c : Conn) (f : Uconn → Uconn) : State :=
  { s with uconns := Function.update s.uconns c (f (s.uconns c)) }

def State.updWsi (s : State) (h : Nat) (f : Wsi → Wsi) : State :=
  { s with wsis := Function.update s.wsis h ((s.wsis h).map f) }

def State.trigger (s : State) (t : Trigger) : State := { s with triggers := s.triggers ++ [t] }

/-- A request before the connection is established is ignored. -/
def Wsi.request (w : Wsi) : Wsi := if w.phase = .established then { w with pending := true } else w

/-- `lws_callback_on_writable`. There is no next state for a null or a dangling
pointer. -/
def callbackOnWritable (s : State) (ws : Option Nat) : Option State := do
  let h ← ws
  let _ ← s.wsis h
  pure (s.updWsi h Wsi.request)

/-- `uconn_isvalid`, with the uconn of a valid id. -/
def uconnIsvalid (s : State) (id : Int) : Option Conn :=
  if h : 0 ≤ id ∧ id < maxuconns then
    let c : Conn := ⟨id.toNat, by omega⟩
    if (s.uconns c).id = id then some c else none
  else none

/-- What `newuconn` sets; the fragments buffer keeps what it holds. -/
def Uconn.take (uc : Uconn) (c : Conn) (uq : Int) : Uconn :=
  { uc with id := c.val, uq := uq, ws := none, iq := none, oq := none, st := 0, fo := 0 }

def newuconn (s : State) (uq : Int) : Option (Conn × State) :=
  match (List.finRange maxuconns).find? fun c =>
      (s.uconns c).ws.isNone && decide ((s.uconns c).id < 0) with
  | none => none
  | some c => some (c, s.updConn c fun uc => uc.take c uq)

def deluconn (s : State) (c : Conn) : State := s.updConn c fun uc => { uc with id := -1 }

/-- A connection that libwebsockets gives for a uconn. -/
def State.openWsi (s : State) (c : Conn) : State :=
  { s with
    uconns := Function.update s.uconns c { s.uconns c with ws := some s.nwsis }
    wsis := Function.update s.wsis s.nwsis
      (some { user := c, phase := .connecting, pending := false })
    nwsis := s.nwsis + 1 }

/-- `ok` tells whether `lws_client_connect_via_info` gives a connection. -/
def wsConnect (s : State) (uq : Int) (ok : Bool) : Int × State :=
  match newuconn s uq with
  | none => (-1, s)
  | some (c, s) => if ok then (c.val, s.openWsi c) else (-1, deluconn s c)

def wsClose (s : State) (id : Int) : State :=
  match uconnIsvalid s id with
  | none => s
  | some c => deluconn s c

/-- The id is tested again under the lock, which in one step gives the same. -/
def wsSend (s : State) (id : Int) (buf : List UInt8) : Option (Int × State) :=
  match uconnIsvalid s id with
  | none => some (-1, s)
  | some c => do
    let (m, p) ← mbuf s.pool buf
    let (oq, p) ← mbufq p (s.uconns c).oq m
    let s := { s with pool := p }.updConn c fun uc => { uc with oq := oq, st := uc.st ||| sSendreq }
    let s ← callbackOnWritable s (s.uconns c).ws
    pure (buf.length, s)

structure Received where
  r : Int
  buf : List UInt8
  state : State

def wsRecv (s : State) (id : Int) (len : Nat) : Received :=
  match uconnIsvalid s id with
  | none => { r := -1, buf := [], state := s }
  | some c =>
    let r := mbufp s.pool (s.uconns c).iq len
    { r := r.r, buf := r.buf,
      state := { s with pool := r.pool }.updConn c fun uc => { uc with iq := r.mb } }

def reportconn (s : State) (c : Conn) : State :=
  s.trigger
    { uq := (s.uconns c).uq, ident := (s.uconns c).id, ffcopy := false, fflags := qnoteConn }

def reportclose (s : State) (c : Conn) : State :=
  s.trigger
    { uq := (s.uconns c).uq, ident := (s.uconns c).id, ffcopy := true, fflags := qnoteClosed }

/-- The message in the fragments buffer, with its NUL. -/
def Uconn.message (uc : Uconn) : List UInt8 := load (Function.update uc.fb uc.fo 0) 0 (uc.fo + 1)

/-- `__recvfrag`, which queues the message. -/
def queueFrags (s : State) (c : Conn) : Option State := do
  let (m, p) ← mbuf s.pool (s.uconns c).message
  let (iq, p) ← mbufq p (s.uconns c).iq m
  pure ({ s with pool := p }.updConn c fun uc =>
    { uc with fb := Function.update uc.fb uc.fo 0, iq := iq, fo := 0 })

/-- Copying a fragment behind those before it. -/
def Uconn.append (uc : Uconn) (buf : List UInt8) : Uconn :=
  { uc with fb := store uc.fb uc.fo buf, fo := uc.fo + buf.length }

def reportread (s : State) (c : Conn) : State :=
  s.trigger
    { uq := (s.uconns c).uq, ident := (s.uconns c).id, ffcopy := false, fflags := qnoteRead }

/-- `r` is what `lws_remaining_packet_payload` returns. There is no next state
when the copy overruns the fragments buffer, which takes a sum that wraps. -/
def recvfrag (s : State) (c : Conn) (buf : List UInt8) (r : Nat) : Option (Int × State) :=
  if maxmsglen < ((s.uconns c).fo + buf.length + r) % 2 ^ 64 then some (-1, s)
  else if maxmsglen < (s.uconns c).fo + buf.length then none
  else
    let s := s.updConn c fun uc => uc.append buf
    if r ≠ 0 then some (0, s) else (queueFrags s c).map fun s => (0, reportread s c)

/-- `n` is what `lws_write` returns for a message. -/
def relayca (s : State) (c : Conn) (n : Int) : Int × State :=
  let r := mbufp s.pool (s.uconns c).oq 1024
  if r.r < 0 then (-1, s)
  else
    let s := { s with pool := r.pool }.updConn c fun uc => { uc with oq := r.mb }
    if r.r ≠ 0 ∧ r.r ≠ n then (-1, s) else (0, s)

/-- Requesting the callback for what was sent before the connection was established. -/
def requestDeferred (s : State) (h : Nat) (c : Conn) : Option State :=
  if (s.uconns c).st &&& sSendreq ≠ 0 then
    (callbackOnWritable s (some h)).map fun s =>
      s.updConn c fun uc => { uc with st := uc.st - (uc.st &&& sSendreq) }
  else some s

/-- The reasons of the callback that are not ignored. -/
inductive Reason where
  | connectionError
  | closed
  | established
  | receive (buf : List UInt8) (r : Nat)
  | writeable (n : Int)
  | wsiDestroy
  | peerInitiatedClose

def lwsHandler (s : State) (h : Nat) (c : Conn) : Reason → Option (Int × State)
  | .connectionError => some (0, reportclose s c)
  | .closed => some (0, reportclose s c)
  | .established => (requestDeferred s h c).map fun s => (0, reportconn s c)
  | .receive buf r => recvfrag s c buf r
  | .writeable n => some (relayca s c n)
  | .wsiDestroy => do
    let (iq, p) ← flush s.pool (s.uconns c).iq
    let (iq, p) ← flush p iq
    pure (0, { s with pool := p }.updConn c fun uc => { uc with iq := iq, ws := none })
  | .peerInitiatedClose => some (-1, s)

/-- When libwebsockets calls back for a reason. -/
def Reason.Enabled (w : Wsi) : Reason → Prop
  | .connectionError => w.phase = .connecting
  | .closed => w.phase ≠ .connecting
  | .established => w.phase = .connecting
  | .receive _ _ => w.phase = .established
  | .writeable _ => w.phase = .established
  | .wsiDestroy => True
  | .peerInitiatedClose => w.phase = .established

instance (w : Wsi) (rs : Reason) : Decidable (rs.Enabled w) := by
  cases rs <;> unfold Reason.Enabled <;> infer_instance

/-- What libwebsockets notes before it calls back. -/
def Reason.enter (w : Wsi) : Reason → Wsi
  | .connectionError => { w with phase := .closing }
  | .closed => { w with phase := .closing }
  | .established => { w with phase := .established }
  | .writeable _ => { w with pending := false }
  | _ => w

/-- What it makes of the result of the callback: the connection is closed when
that is not zero, and there is none after WSI_DESTROY. -/
def leave (s : State) (h : Nat) (rs : Reason) (r : Int) : State :=
  match rs with
  | .wsiDestroy => { s with wsis := Function.update s.wsis h none }
  | _ => if r ≠ 0 then s.updWsi h fun w => { w with phase := .closing } else s

def callback (s : State) (h : Nat) (rs : Reason) : Option State := do
  let w ← s.wsis h
  if rs.Enabled w then
    let (r, s) ← lwsHandler (s.updWsi h fun w => rs.enter w) h w.user rs
    pure (leave s h rs r)
  else none

/-- Each call of the application and each callback is one step. -/
inductive Event where
  | connect (uq : Int) (ok : Bool)
  | close (id : Int)
  | send (id : Int) (buf : List UInt8)
  | recv (id : Int) (len : Nat)
  | callback (h : Nat) (rs : Reason)

def step (s : State) : Event → Option State
  | .connect uq ok => some (wsConnect s uq ok).2
  | .close id => some (wsClose s id)
  | .send id buf => (wsSend s id buf).map Prod.snd
  | .recv id len => some (wsRecv s id len).state
  | .callback h rs => callback s h rs

/-- What `init_ws` leaves. -/
def initWs : State where
  uconns _ :=
    { id := -1, uq := 0, ws := none, st := 0, fb := fun _ => 0, fo := 0, iq := none, oq := none }
  pool := { mbufs := fun _ => { len := 0, buf := fun _ => 0, next := none }, i := 0 }
  wsis _ := none
  nwsis := 0
  triggers := []

end Oin17.Ws
