import BpGdb.List
import Mathlib

/-!
# Load balancer statistics and clusters

`lb_stats` counts the connections on the HTTP and the TCP list, the SSL
filters among them, and the buffers whose `data` is set. Each counter is a
sum over the connections of what one connection adds, in any order: every
connection counts once, at most one SSL filter each, and an HTTP connection
adds between 1 and 9 buffers, a TCP connection at most 10.

`lb_listener_get_any_cluster` follows a listener's `destination` through the
`fallback` gotos of branches to the first goto that names a cluster; on a
fallback chain that comes back to itself it recurses without end.
-/

namespace BpGdb

structure FilterBuffers where
  encryptedInput : Addr
  decryptedInput : Addr
  plainOutput : Addr
  encryptedOutput : Addr

/-- What `invoke` reads of an HTTP connection: `ssl_filter` and its buffers,
and the socket filter `http.socket.filter` and its buffers. -/
structure HttpConnection where
  sslFilter : Addr
  sslFilterBuffers : FilterBuffers
  filter : Addr
  filterBuffers : FilterBuffers

/-- What `invoke` reads of a TCP connection: the socket filter of `inbound` and
its buffers, the filter's `handler` and its buffers, and the `data` of
`outbound.input` and `inbound.base.input`. -/
structure TcpConnection where
  filter : Addr
  filterBuffers : FilterBuffers
  handler : Addr
  handlerBuffers : FilterBuffers
  outboundInput : Addr
  inboundInput : Addr

structure LbCounts where
  n : Nat
  nSsl : Nat
  nHttp : Nat
  nTcp : Nat
  nBuffers : Nat
  deriving DecidableEq, Repr

def FilterBuffers.count (b : FilterBuffers) (nBuffers : Nat) : Nat :=
  [b.encryptedInput, b.decryptedInput, b.plainOutput, b.encryptedOutput].foldl
    (fun nBuffers data => if ¬isNull data then nBuffers + 1 else nBuffers) nBuffers

def httpStep (s : LbCounts) (c : HttpConnection) : LbCounts :=
  let nSsl := if ¬isNull c.sslFilter then s.nSsl + 1 else s.nSsl
  let nBuffers := if ¬isNull c.sslFilter then c.sslFilterBuffers.count s.nBuffers else s.nBuffers
  let nBuffers := if ¬isNull c.filter then c.filterBuffers.count nBuffers else nBuffers
  ⟨s.n + 1, nSsl, s.nHttp + 1, s.nTcp, nBuffers + 1⟩

def tcpStep (s : LbCounts) (c : TcpConnection) : LbCounts :=
  let (nSsl, nBuffers) :=
    if ¬isNull c.filter then
      let nBuffers := c.filterBuffers.count s.nBuffers
      if ¬isNull c.handler then (s.nSsl + 1, c.handlerBuffers.count nBuffers) else (s.nSsl, nBuffers)
    else (s.nSsl, s.nBuffers)
  let nBuffers := if ¬isNull c.outboundInput then nBuffers + 1 else nBuffers
  let nBuffers := if ¬isNull c.inboundInput then nBuffers + 1 else nBuffers
  ⟨s.n + 1, nSsl, s.nHttp, s.nTcp + 1, nBuffers⟩

def lbCounts (http : List HttpConnection) (tcp : List TcpConnection) : LbCounts :=
  tcp.foldl tcpStep (http.foldl httpStep ⟨0, 0, 0, 0, 0⟩)

structure LbStatsOutput where
  nHttpConnections : Nat
  nTcpConnections : Nat
  counts : LbCounts
  deriving DecidableEq, Repr

/-- `LbStats.invoke`: `instanceType` is the type of the evaluated argument;
`http_connections` and `tcp_connections` are walked, with the `size_` they
record, and each connection read through `readHttp` or `readTcp`. -/
def LbStats.invoke (m : Mem) (readHttp : Addr → HttpConnection) (readTcp : Addr → TcpConnection)
    (instanceType : String) (httpConnections tcpConnections : Addr) (httpSize tcpSize fuel : Nat) :
    Option (Except PyError LbStatsOutput) :=
  match assertGdbType instanceType "LbInstance *" with
  | .error e => some (.error e)
  | .ok () => do
    let http ← (forEachIntrusiveListItem m none httpConnections).run fuel
    let tcp ← (forEachIntrusiveListItem m none tcpConnections).run fuel
    pure (.ok ⟨httpSize, tcpSize, lbCounts (http.map readHttp) (tcp.map readTcp)⟩)

/-! ## What one connection adds -/

def FilterBuffers.live (b : FilterBuffers) : Nat :=
  ([b.encryptedInput, b.decryptedInput, b.plainOutput, b.encryptedOutput].filter (· ≠ 0)).length

def HttpConnection.ssl (c : HttpConnection) : Nat := if c.sslFilter ≠ 0 then 1 else 0

def HttpConnection.buffers (c : HttpConnection) : Nat :=
  (if c.sslFilter ≠ 0 then c.sslFilterBuffers.live else 0) +
    (if c.filter ≠ 0 then c.filterBuffers.live else 0) + 1

def TcpConnection.ssl (c : TcpConnection) : Nat := if c.filter ≠ 0 ∧ c.handler ≠ 0 then 1 else 0

def TcpConnection.buffers (c : TcpConnection) : Nat :=
  (if c.filter ≠ 0 then c.filterBuffers.live + (if c.handler ≠ 0 then c.handlerBuffers.live else 0)
    else 0) + (if c.outboundInput ≠ 0 then 1 else 0) + (if c.inboundInput ≠ 0 then 1 else 0)

theorem foldl_notNull (l : List Addr) : ∀ k,
    l.foldl (fun nBuffers data => if ¬isNull data then nBuffers + 1 else nBuffers) k =
      k + (l.filter (· ≠ 0)).length := by
  induction l with
  | nil => intro k; rfl
  | cons d l ih =>
    intro k
    rw [List.foldl_cons, ih, List.filter_cons]
    by_cases hd : d = 0
    · simp [isNull, hd]
    · rw [if_pos (show ¬isNull d from hd), if_pos (decide_eq_true hd), List.length_cons]
      omega

theorem FilterBuffers.count_eq (b : FilterBuffers) (k : Nat) : b.count k = k + b.live :=
  foldl_notNull _ k

theorem FilterBuffers.live_le (b : FilterBuffers) : b.live ≤ 4 :=
  List.length_filter_le _ _

theorem httpStep_eq (s : LbCounts) (c : HttpConnection) :
    httpStep s c = ⟨s.n + 1, s.nSsl + c.ssl, s.nHttp + 1, s.nTcp, s.nBuffers + c.buffers⟩ := by
  by_cases h1 : c.sslFilter = 0 <;> by_cases h2 : c.filter = 0 <;>
    simp only [httpStep, HttpConnection.ssl, HttpConnection.buffers, isNull, FilterBuffers.count_eq,
      ne_eq, h1, h2, not_true_eq_false, not_false_eq_true, if_true, if_false] <;>
    congr 1 <;> omega

theorem tcpStep_eq (s : LbCounts) (c : TcpConnection) :
    tcpStep s c = ⟨s.n + 1, s.nSsl + c.ssl, s.nHttp, s.nTcp + 1, s.nBuffers + c.buffers⟩ := by
  by_cases h1 : c.filter = 0 <;> by_cases h2 : c.handler = 0 <;> by_cases h3 : c.outboundInput = 0 <;>
    by_cases h4 : c.inboundInput = 0 <;>
    simp only [tcpStep, TcpConnection.ssl, TcpConnection.buffers, isNull, FilterBuffers.count_eq,
      ne_eq, h1, h2, h3, h4, not_true_eq_false, not_false_eq_true, if_true, if_false, and_true,
      and_false, true_and, false_and] <;>
    congr 1 <;> omega

theorem HttpConnection.ssl_le (c : HttpConnection) : c.ssl ≤ 1 := by
  unfold ssl; split <;> omega

theorem HttpConnection.buffers_bounds (c : HttpConnection) : 1 ≤ c.buffers ∧ c.buffers ≤ 9 := by
  have := c.sslFilterBuffers.live_le
  have := c.filterBuffers.live_le
  unfold buffers; split_ifs <;> omega

theorem TcpConnection.ssl_le (c : TcpConnection) : c.ssl ≤ 1 := by
  unfold ssl; split <;> omega

theorem TcpConnection.buffers_le (c : TcpConnection) : c.buffers ≤ 10 := by
  have := c.filterBuffers.live_le
  have := c.handlerBuffers.live_le
  unfold buffers; split_ifs <;> omega

/-! ## The loops -/

theorem foldl_httpStep : ∀ (http : List HttpConnection) (s : LbCounts),
    http.foldl httpStep s = ⟨s.n + http.length, s.nSsl + (http.map HttpConnection.ssl).sum,
      s.nHttp + http.length, s.nTcp, s.nBuffers + (http.map HttpConnection.buffers).sum⟩
  | [], _ => rfl
  | c :: http, s => by
    rw [List.foldl_cons, httpStep_eq, foldl_httpStep http]
    simp only [List.length_cons, List.map_cons, List.sum_cons]
    congr 1 <;> omega

theorem foldl_tcpStep : ∀ (tcp : List TcpConnection) (s : LbCounts),
    tcp.foldl tcpStep s = ⟨s.n + tcp.length, s.nSsl + (tcp.map TcpConnection.ssl).sum,
      s.nHttp, s.nTcp + tcp.length, s.nBuffers + (tcp.map TcpConnection.buffers).sum⟩
  | [], _ => rfl
  | c :: tcp, s => by
    rw [List.foldl_cons, tcpStep_eq, foldl_tcpStep tcp]
    simp only [List.length_cons, List.map_cons, List.sum_cons]
    congr 1 <;> omega

/-- `lb_stats` counts every connection once, as HTTP or as TCP, and `n_ssl`
and `n_buffers` add up, over the connections in any order, what each adds: at
most one SSL filter, and at least one and at most 9 buffers for an HTTP
connection, at most 10 for a TCP one. -/
theorem lbCounts_sums (http : List HttpConnection) (tcp : List TcpConnection) :
    lbCounts http tcp = ⟨http.length + tcp.length,
      (http.map HttpConnection.ssl).sum + (tcp.map TcpConnection.ssl).sum, http.length, tcp.length,
      (http.map HttpConnection.buffers).sum + (tcp.map TcpConnection.buffers).sum⟩ ∧
    (∀ c : HttpConnection, c.ssl ≤ 1 ∧ 1 ≤ c.buffers ∧ c.buffers ≤ 9) ∧
    (∀ c : TcpConnection, c.ssl ≤ 1 ∧ c.buffers ≤ 10) ∧
    (lbCounts http tcp).nSsl ≤ (lbCounts http tcp).n ∧
    (lbCounts http tcp).nHttp ≤ (lbCounts http tcp).nBuffers ∧
    (lbCounts http tcp).nBuffers ≤ 9 * (lbCounts http tcp).nHttp + 10 * (lbCounts http tcp).nTcp := by
  refine ⟨?_, fun c => ⟨c.ssl_le, c.buffers_bounds⟩, fun c => ⟨c.ssl_le, c.buffers_le⟩, ?_⟩
  · rw [lbCounts, foldl_tcpStep, foldl_httpStep]
    simp only [Nat.zero_add]
  rw [lbCounts, foldl_tcpStep, foldl_httpStep]
  dsimp only
  have hs := List.sum_le_card_nsmul (http.map HttpConnection.ssl) 1 (by simp [HttpConnection.ssl_le])
  have ts := List.sum_le_card_nsmul (tcp.map TcpConnection.ssl) 1 (by simp [TcpConnection.ssl_le])
  have hb := List.sum_le_card_nsmul (http.map HttpConnection.buffers) 9
    (by simp [fun c : HttpConnection => c.buffers_bounds.2])
  have hb₁ := List.card_nsmul_le_sum (http.map HttpConnection.buffers) 1
    (by simp [fun c : HttpConnection => c.buffers_bounds.1])
  have tb := List.sum_le_card_nsmul (tcp.map TcpConnection.buffers) 10 (by simp [TcpConnection.buffers_le])
  simp only [List.length_map, Nat.nsmul_eq_mul] at hs ts hb hb₁ tb
  omega

/-! ## The cluster of a listener -/

structure LbGoto where
  cluster : Addr
  branch : Addr

/-- `lb_goto_get_any_cluster`, the goto at `g` read through `goto`; `fallback b`
is the address of `b['fallback']`. `some none` is Python's `None`; the
recursion takes fuel, and `none` is a recursion that has not ended. -/
def lbGotoGetAnyCluster (goto : Addr → LbGoto) (fallback : Addr → Addr) : Nat → Addr → Option (Option Addr)
  | 0, _ => none
  | fuel + 1, g =>
    if (goto g).cluster ≠ 0 then some (some (goto g).cluster)
    else if (goto g).branch ≠ 0 then lbGotoGetAnyCluster goto fallback fuel (fallback (goto g).branch)
    else some none

def lbBranchGetAnyCluster (goto : Addr → LbGoto) (fallback : Addr → Addr) (fuel : Nat) (b : Addr) :
    Option (Option Addr) :=
  lbGotoGetAnyCluster goto fallback fuel (fallback b)

def lbListenerGetAnyCluster (goto : Addr → LbGoto) (fallback destination : Addr → Addr) (fuel : Nat)
    (l : Addr) : Option (Option Addr) :=
  lbGotoGetAnyCluster goto fallback fuel (destination l)

section Cluster

variable {goto : Addr → LbGoto} {fallback : Addr → Addr}

theorem lbGotoGetAnyCluster_branch {fuel : Nat} {g : Addr} (hc : (goto g).cluster = 0)
    (hb : (goto g).branch ≠ 0) :
    lbGotoGetAnyCluster goto fallback (fuel + 1) g = lbBranchGetAnyCluster goto fallback fuel (goto g).branch := by
  rw [lbGotoGetAnyCluster, if_neg (not_not.2 hc), if_pos hb, lbBranchGetAnyCluster]

theorem lbGotoGetAnyCluster_path {g g' : Addr} {l : List Addr}
    (hl : Path (fun x => fallback (goto x).branch) g l g')
    (hskip : ∀ x ∈ l, (goto x).cluster = 0 ∧ (goto x).branch ≠ 0) :
    (∀ fuel, lbGotoGetAnyCluster goto fallback (l.length + fuel) g = lbGotoGetAnyCluster goto fallback fuel g') ∧
      ∀ fuel ≤ l.length, lbGotoGetAnyCluster goto fallback fuel g = none := by
  induction hl with
  | nil => exact ⟨fun fuel => by rw [List.length_nil, Nat.zero_add], fun fuel h => by
      rw [Nat.le_zero.1 h, lbGotoGetAnyCluster]⟩
  | @cons x l y _ ih =>
    obtain ⟨hc, hb⟩ := hskip x (List.mem_cons_self _ _)
    obtain ⟨run, short⟩ := ih fun z hz => hskip z (List.mem_cons_of_mem _ hz)
    refine ⟨fun fuel => ?_, fun fuel h => ?_⟩
    · rw [List.length_cons, Nat.add_right_comm, lbGotoGetAnyCluster_branch hc hb, lbBranchGetAnyCluster, run]
    · cases fuel with
      | zero => rfl
      | succ fuel =>
        rw [lbGotoGetAnyCluster_branch hc hb, lbBranchGetAnyCluster]
        exact short fuel (by simpa using h)

theorem lbGotoGetAnyCluster_loop {g : Addr} {l : List Addr}
    (hl : Path (fun x => fallback (goto x).branch) g (g :: l) g)
    (hskip : ∀ x ∈ g :: l, (goto x).cluster = 0 ∧ (goto x).branch ≠ 0) :
    ∀ fuel, lbGotoGetAnyCluster goto fallback fuel g = none := by
  obtain ⟨run, short⟩ := lbGotoGetAnyCluster_path hl hskip
  intro fuel
  induction fuel using Nat.strong_induction_on with
  | _ fuel ih =>
    by_cases h : fuel ≤ (g :: l).length
    · exact short fuel h
    · obtain ⟨k, rfl⟩ := Nat.exists_eq_add_of_lt (not_le.1 h)
      rw [Nat.add_assoc, run]
      exact ih _ (by simp only [List.length_cons]; omega)

/-- `lb_listener_get_any_cluster` follows the fallback chain from the
listener's `destination` through the gotos that have no cluster but a branch.
Where the chain arrives at a goto with a cluster it returns that cluster, at a
goto with neither it returns `None`, both once the fuel covers the chain and
never before; where the chain comes back to a goto it passed, the recursion
never ends. -/
theorem lbListenerGetAnyCluster_fallbackChain (goto : Addr → LbGoto) (fallback destination : Addr → Addr)
    (listener : Addr) {g' : Addr} {l : List Addr}
    (hl : Path (fun x => fallback (goto x).branch) (destination listener) l g')
    (hskip : ∀ x ∈ l, (goto x).cluster = 0 ∧ (goto x).branch ≠ 0) :
    (∀ fuel ≤ l.length, lbListenerGetAnyCluster goto fallback destination fuel listener = none) ∧
    ((goto g').cluster ≠ 0 → ∀ fuel, l.length < fuel →
      lbListenerGetAnyCluster goto fallback destination fuel listener = some (some (goto g').cluster)) ∧
    ((goto g').cluster = 0 → (goto g').branch = 0 → ∀ fuel, l.length < fuel →
      lbListenerGetAnyCluster goto fallback destination fuel listener = some none) ∧
    (g' ∈ l → ∀ fuel, lbListenerGetAnyCluster goto fallback destination fuel listener = none) := by
  obtain ⟨run, short⟩ := lbGotoGetAnyCluster_path hl hskip
  have after : ∀ fuel, l.length < fuel → lbListenerGetAnyCluster goto fallback destination fuel listener =
      lbGotoGetAnyCluster goto fallback (fuel - l.length - 1 + 1) g' := fun fuel h => by
    rw [lbListenerGetAnyCluster, ← run]
    congr 1
    omega
  refine ⟨short, fun hc fuel h => ?_, fun hc hb fuel h => ?_, fun hg fuel => ?_⟩
  · rw [after fuel h, lbGotoGetAnyCluster, if_pos hc]
  · rw [after fuel h, lbGotoGetAnyCluster, if_neg (not_not.2 hc), if_neg (not_not.2 hb)]
  · obtain ⟨l₁, l₂, rfl, hloop⟩ := hl.exists_suffix hg
    have hloop' := lbGotoGetAnyCluster_loop hloop fun x hx => hskip x (List.mem_append_right _ hx)
    by_cases h : fuel ≤ (l₁ ++ g' :: l₂).length
    · exact short fuel h
    · obtain ⟨k, rfl⟩ := Nat.exists_eq_add_of_le (le_of_not_le h)
      rw [lbListenerGetAnyCluster, run, hloop']

end Cluster

def fallbackGoto (g : Addr) : LbGoto := if g = 1 then ⟨0, 5⟩ else ⟨7, 0⟩

theorem fallbackGoto_cluster :
    lbListenerGetAnyCluster fallbackGoto (fun _ => 2) id 2 1 = some (some 7) :=
  (lbListenerGetAnyCluster_fallbackChain fallbackGoto (fun _ => 2) id 1 (.cons (.nil 2))
    (by simp [fallbackGoto])).2.1 (by decide) 2 (by decide)

end BpGdb
