import BpGdb.LbStats

/-!
# Finding a FIFO buffer

`iter_fifo_buffers` yields, connection by connection, the buffers of the TCP
connections of an instance, and prints a line for each connection of an
unknown protocol. It follows three pointers without a check: the cluster of
the listener's destination (null for a branch), the filter's `filter_ctx`
and its `handler_ctx`; a read through a null one raises `gdb.MemoryError`.

`bp_find_slice_fifo_buffer` pulls from the generator until a buffer's `data`
is its address. The generator is lazy: the search ends at the first such
buffer or the first fault, whichever comes first, having printed the lines of
the connections before it, and reads no connection after it.
-/

namespace BpGdb

structure FifoConnection where
  cluster : Addr
  inboundInput : Addr
  filter : Addr
  filterCtx : Addr

/-- What `iter_fifo_buffers` reads: of a connection, `listener.destination.cluster`
and of `tcp.inbound` the `data` of `base.input`, `filter` and `filter_ctx`;
behind those pointers, a cluster's `protocol`, the four buffers and the
`handler_ctx` of a `ThreadSocketFilter`, and two buffers of an `SslFilter`. -/
structure FifoMem where
  connection : Addr → FifoConnection
  protocol : Addr → Nat
  threadSocketFilter : Addr → FilterBuffers
  handlerCtx : Addr → Addr
  sslFilter : Addr → Addr × Addr

inductive FifoEvent
  | buffer (label : String) (data : Addr) (connection : Addr)
  | unknownProtocol (connection : Addr)
  | memoryError (connection : Addr)
  deriving DecidableEq

def fifoEvents (fm : FifoMem) (connection : Addr) : List FifoEvent :=
  let c := fm.connection connection
  if c.cluster = 0 then [.memoryError connection]
  else if fm.protocol c.cluster = 0 then []
  else if fm.protocol c.cluster = 1 then
    .buffer "tcp inbound input" c.inboundInput connection ::
      if c.filter ≠ 0 then
        if c.filterCtx = 0 then [.memoryError connection]
        else
          let tsf := fm.threadSocketFilter c.filterCtx
          ([("encrypted_input", tsf.encryptedInput), ("decrypted_input", tsf.decryptedInput),
            ("plain_output", tsf.plainOutput), ("encrypted_output", tsf.encryptedOutput)].map
            fun (name, data) => .buffer ("tcp inbound " ++ name) data connection) ++
          if fm.handlerCtx c.filterCtx = 0 then [.memoryError connection]
          else
            let ssl := fm.sslFilter (fm.handlerCtx c.filterCtx)
            [("decrypted_input", ssl.1), ("plain_output", ssl.2)].map
              fun (name, data) => .buffer ("tcp inbound ssl " ++ name) data connection
      else []
  else [.unknownProtocol connection]

def iterFifoBuffers (m : Mem) (fm : FifoMem) (connections : Addr) : Gen Addr (List FifoEvent) :=
  (forEachIntrusiveListItem m none connections).map (fifoEvents fm)

def findPtr : Addr := 0x7f332c403000

def findIn (ptr : Addr) : List FifoEvent → List FifoEvent × Bool
  | [] => ([], false)
  | .unknownProtocol c :: es => (.unknownProtocol c :: (findIn ptr es).1, (findIn ptr es).2)
  | .buffer label data c :: es => if data = ptr then ([.buffer label data c], true) else findIn ptr es
  | .memoryError c :: _ => ([.memoryError c], true)

/-- The loop `for x in iter_fifo_buffers(instance)` with its `break`, one
connection per unit of fuel. -/
def findFrom {σ : Type} (g : Gen σ (List FifoEvent)) (ptr : Addr) : Nat → σ → Option (List FifoEvent)
  | 0, _ => none
  | fuel + 1, s =>
    match g.next s with
    | none => some []
    | some (events, s') =>
      if (findIn ptr events).2 then some (findIn ptr events).1
      else (findFrom g ptr fuel s').map ((findIn ptr events).1 ++ ·)

def FindSliceFifoBuffer.invoke (m : Mem) (fm : FifoMem) (connections : Addr) (fuel : Nat) :
    Option (List FifoEvent) :=
  findFrom (iterFifoBuffers m fm connections) findPtr fuel (iterFifoBuffers m fm connections).start

/-! ## The first stop -/

variable {ptr : Addr}

end BpGdb
