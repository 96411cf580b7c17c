/-
# The connections of `epoll_handle`

For a connection that it accepts the loop gets four blocks from `malloc`: the `connection_t`,
what it keeps of the socket, a buffer that it does not use, and the request.  It hands the
address of the first one to `epoll_ctl`, and gets it back from `epoll_wait` in `events`, a batch
that is worked off before the next call.  The function that answers a request closes the
connection and frees the four blocks.

* `epollRead` is the part of the loop for a connection that can be read from; what the response
  module does to the connection is done to the memory (`applyAct`).
* Whether it leaves the connection released is a question of the request and its answer
  (`epollRead_releases_iff`): a free of a pointer that `malloc` did not return, or of one that was
  freed before, is a fault.  For a well-formed request, and for the upload of a form, it is
  whether its copies have room, its path can be logged, the answer has room and `send` does not
  fail (`releasesConn_iff_of_received`).
* In every run in which accepting does not fail and every request is of that kind, what is in
  memory are the blocks of the open connections, every address that `epoll_wait` has handed out
  or can hand out is that of an open connection, and each one that was accepted is open or has been
  released once (`epollLoop_run`).
-/
import DmfServer.WebSite
import DmfServer.Upload
import DmfServer.HeapBlocks
import DmfServer.StepSystem

open CMem StepSystem

/-! ## The memory -/

/-- `connection_t`. -/
structure Connection where
  perHandleData : Addr
  perIoData : Addr
  req : Addr

/-- A block that the loop gets from `malloc`. -/
inductive ConnBlock : Type where
  | connection (c : Connection)
  /-- `per_handle_data_t`, with its socket. -/
  | perHandleData (socket : ℤ)
  /-- `per_io_data_t`, of which the loop uses nothing. -/
  | perIoData
  | request (record : Request)

/-- The blocks in memory, the sockets that `epoll` watches with the pointers that were given
with them, and `res_str`. -/
structure EpollState where
  heap : Heap ConnBlock
  watched : List (ℤ × Addr)
  resStr : List UInt8

namespace EpollState

/-- `*conn`. -/
def connection (s : EpollState) (conn : Addr) : Except Fault Connection := do
  match ← s.heap.load conn with
  | .connection c => .ok c
  | _ => .error (.wild conn)

/-- `per_handle_data->Socket`. -/
def socket (s : EpollState) (perHandleData : Addr) : Except Fault ℤ := do
  match ← s.heap.load perHandleData with
  | .perHandleData fd => .ok fd
  | _ => .error (.wild perHandleData)

/-- `*req`. -/
def request (s : EpollState) (req : Addr) : Except Fault Request := do
  match ← s.heap.load req with
  | .request record => .ok record
  | _ => .error (.wild req)

/-- `close` of a socket, which `epoll` does not watch any more then. -/
def close (s : EpollState) (fd : ℤ) : EpollState :=
  { s with watched := s.watched.filter fun e => e.1 ≠ fd }

end EpollState

/-! ## The functions -/

/-- `connection_close`. -/
def connectionClose (conn : Addr) (s : EpollState) : Except Fault EpollState := do
  let c ← s.connection conn
  let fd ← s.socket c.perHandleData
  .ok (s.close fd)

/-- `req_free`, with the `free` of the body; its two maps go to `hashmap_destroy`. -/
def freeRecord (record : Request) : Except Fault Unit := do
  let freed ← reqFree record
  match freed.body with
  | .obj _ => .ok ()
  | .addr a => if a = 0 then .ok () else .error .free

/-- `connection_free`. -/
def connectionFree (conn : Addr) (s : EpollState) : Except Fault EpollState := do
  let c ← s.connection conn
  let record ← s.request c.req
  freeRecord record
  let heap ← s.heap.free c.req
  let heap ← heap.free c.perIoData
  let heap ← heap.free c.perHandleData
  let heap ← heap.free conn
  .ok { s with heap := heap }

/-- What the response module does to a connection; a socket is closed by itself with the
connection still there. -/
def applyAct (conn : Addr) (s : EpollState) : Act → Except Fault EpollState
  | .send _ _ => .ok s
  | .connectionClose => connectionClose conn s
  | .connectionFree => connectionFree conn s
  | .closeSocket => connectionClose conn s

/-- `epoll_handle` on a connection that can be read from, where `recv` returns what was
`received`, or -1. -/
def epollRead (junk : ℕ → PartJunk) (w : World) (g : CtlFunMap View) (files : FileList) (pid : ℤ)
    (spare : SpareByte) (received : Option Received) (conn : Addr) (s : EpollState) :
    Except Fault EpollState :=
  match received with
  | none => connectionClose conn s >>= connectionFree conn
  | some b => do
      let c ← s.connection conn
      let record ← s.request c.req
      let request ← epollReceive junk w.now pid spare record (recvInto s.resStr b)
      let acts ← Container.handle .epoll w g files request
      acts.foldlM (applyAct conn)
        { s with heap := s.heap.store c.req (.request request), resStr := recvInto s.resStr b }

/-- `epoll_handle` with what `accept` returns and the blocks of `malloc`, at fresh addresses;
`epoll_ctl` does not take -1. -/
def epollAccept (fd : ℤ) (conn : Addr) (c : Connection) (mem : RequestMem) (s : EpollState) :
    EpollState :=
  let heap := s.heap.store conn (.connection c)
  let heap := heap.store c.perHandleData (.perHandleData fd)
  let heap := heap.store c.perIoData .perIoData
  let heap := heap.store c.req (.request (reqParseInit mem))
  { s with heap := heap, watched := if fd = -1 then s.watched else (fd, conn) :: s.watched }

/-! ## The answers -/

/-- A file that is sent in chunks does not get its connection freed. -/
theorem connectionFree_notMem {w : World} {path contentType : List UInt8} {acts : List Act}
    (h : resFileHandle w path contentType [] = .ok acts) : .connectionFree ∉ acts := by
  obtain ⟨head, -, h⟩ := exists_of_bind h
  cases hfile : w.disk path with
  | none =>
      simp only [hfile] at h
      cases h
      simp [sendOn]
  | some content =>
      simp only [hfile] at h
      obtain ⟨sent, hsent, h⟩ := exists_of_bind h
      cases h
      have hcount := count_sendChunks hsent
      have hhead : (sendOn w.wire (head.str 0) []).count .connectionFree = 0 := by
        simp [sendOn]
      have hnot : .connectionFree ∉ sent := List.count_eq_zero.mp (hcount.trans hhead)
      simp [sendOn, hnot]

/-- What answers a request hands the connection to `res_handle`, or does not free it. -/
theorem acts_of_run {w : World} {a : Answer} {acts : List Act} (h : a.run w [] = .ok acts) :
    (∃ resStr, acts = resHandle w.wire resStr []) ∨ .connectionFree ∉ acts := by
  have hrow : ∀ s, resRow w s [] = .ok acts → ∃ resStr, acts = resHandle w.wire resStr [] := by
    intro s h
    obtain ⟨conlen, -, h⟩ := exists_of_bind h
    obtain ⟨finalStr, -, h⟩ := exists_of_bind h
    exact ⟨_, (Except.ok.inj h).symm⟩
  cases a with
  | row s => exact Or.inl (hrow s h)
  | render s => exact Or.inl (hrow s h)
  | parseSend res =>
      obtain ⟨body, -, rfl⟩ := resParseSend_of_ok h
      exact Or.inl ⟨_, rfl⟩
  | notfound =>
      obtain ⟨finalStr, -, h⟩ := exists_of_bind h
      exact Or.inl ⟨_, (Except.ok.inj h).symm⟩
  | static f =>
      have h : resStatic w f [] = .ok acts := h
      unfold resStatic at h
      split at h
      case isTrue => exact Or.inr (connectionFree_notMem h)
      case isFalse =>
        obtain ⟨res₁, -, h⟩ := exists_of_bind h
        obtain ⟨res₂, -, h⟩ := exists_of_bind h
        obtain ⟨res₃, -, h⟩ := exists_of_bind h
        obtain ⟨sent, hsent, h⟩ := exists_of_bind h
        obtain ⟨-, -, h⟩ := exists_of_bind h
        cases h
        obtain ⟨body, -, rfl⟩ := resParseSend_of_ok hsent
        exact Or.inl ⟨_, rfl⟩

/-! ## The blocks of a connection -/

/-- A connection, with the addresses and the content of its blocks. -/
structure OpenConn where
  conn : Addr
  c : Connection
  socket : ℤ
  record : Request

namespace OpenConn

/-- Its blocks. -/
def blocks (o : OpenConn) : List (Addr × ConnBlock) :=
  [(o.conn, .connection o.c), (o.c.perHandleData, .perHandleData o.socket),
    (o.c.perIoData, .perIoData), (o.c.req, .request o.record)]

variable {o : OpenConn} {s t : EpollState} {rest : List (Addr × ConnBlock)}

theorem connection_eq (hb : Blocks s.heap (o.blocks ++ rest)) :
    s.connection o.conn = .ok o.c := by
  rw [EpollState.connection, hb.load (List.mem_append_left _ List.mem_cons_self)]
  rfl

theorem socket_eq (hb : Blocks s.heap (o.blocks ++ rest)) :
    s.socket o.c.perHandleData = .ok o.socket := by
  have hmem : (o.c.perHandleData, ConnBlock.perHandleData o.socket) ∈ o.blocks ++ rest := by
    simp [blocks]
  rw [EpollState.socket, hb.load hmem]
  rfl

theorem request_eq (hb : Blocks s.heap (o.blocks ++ rest)) :
    s.request o.c.req = .ok o.record := by
  have hmem : (o.c.req, ConnBlock.request o.record) ∈ o.blocks ++ rest := by
    simp [blocks]
  rw [EpollState.request, hb.load hmem]
  rfl

theorem close_eq (hb : Blocks s.heap (o.blocks ++ rest)) :
    connectionClose o.conn s = .ok (s.close o.socket) := by
  rw [connectionClose, connection_eq hb, ok_bind, socket_eq hb]
  rfl

/-- The connection is freed, if its request can be. -/
theorem free_eq (hb : Blocks s.heap (o.blocks ++ rest)) (hrecord : freeRecord o.record = .ok ()) :
    ∃ heap, connectionFree o.conn s = .ok { s with heap := heap } ∧ Blocks heap rest ∧
      heap o.conn = none := by
  have hreverse : Blocks s.heap ((o.c.req, .request o.record) :: (o.c.perIoData, .perIoData) ::
      (o.c.perHandleData, .perHandleData o.socket) :: (o.conn, .connection o.c) :: rest) :=
    hb.perm ((List.reverse_perm o.blocks).symm.append_right rest)
  obtain ⟨h₁, hb₁⟩ := hreverse.free
  obtain ⟨h₂, hb₂⟩ := hb₁.free
  obtain ⟨h₃, hb₃⟩ := hb₂.free
  obtain ⟨h₄, hb₄⟩ := hb₃.free
  refine ⟨_, ?_, hb₄, Function.update_self _ _ _⟩
  rw [connectionFree, connection_eq hb, ok_bind, request_eq hb, ok_bind, hrecord, ok_bind, h₁,
    ok_bind, h₂, ok_bind, h₃, ok_bind, h₄]
  rfl

/-- A connection with a request that cannot be freed is not freed. -/
theorem record_of_free (hb : Blocks s.heap (o.blocks ++ rest))
    (h : connectionFree o.conn s = .ok t) : freeRecord o.record = .ok () := by
  rw [connectionFree, connection_eq hb, ok_bind, request_eq hb, ok_bind] at h
  obtain ⟨u, hrecord, -⟩ := exists_of_bind h
  exact hrecord

/-- Another request is written to its block. -/
theorem store_request (hb : Blocks s.heap (o.blocks ++ rest)) (record : Request) :
    Blocks (s.heap.store o.c.req (.request record))
      ({ o with record := record }.blocks ++ rest) := by
  let others : List (Addr × ConnBlock) := [(o.conn, .connection o.c),
    (o.c.perHandleData, .perHandleData o.socket), (o.c.perIoData, .perIoData)]
  have hlast : ∀ r, (others ++ (o.c.req, ConnBlock.request r) :: rest).Perm
      ((o.c.req, .request r) :: (others ++ rest)) := fun r => List.perm_middle
  have hblocks : Blocks s.heap (others ++ (o.c.req, .request o.record) :: rest) := hb
  exact ((hblocks.perm (hlast o.record)).store (.request record)).perm (hlast record).symm

end OpenConn

/-- What is not there is not closed. -/
theorem not_connectionClose {conn : Addr} {s t : EpollState} (h : s.heap conn = none) :
    connectionClose conn s ≠ .ok t := by
  intro hok
  obtain ⟨c, hc, -⟩ := exists_of_bind hok
  obtain ⟨b, hload, -⟩ := exists_of_bind hc
  rw [Heap.some_of_load hload] at h
  cases h

/-- Without a free the blocks stay as they are. -/
theorem heap_of_applyActs {conn : Addr} {acts : List Act} (hnot : .connectionFree ∉ acts)
    {s t : EpollState} (h : acts.foldlM (applyAct conn) s = .ok t) : t.heap = s.heap := by
  have hclose : ∀ {s t : EpollState}, connectionClose conn s = .ok t → t.heap = s.heap := by
    intro s t hok
    obtain ⟨c, -, hok⟩ := exists_of_bind hok
    obtain ⟨fd, -, hok⟩ := exists_of_bind hok
    cases hok
    rfl
  induction acts generalizing s with
  | nil =>
      cases h
      rfl
  | cons act acts ih =>
      rw [List.mem_cons, not_or] at hnot
      rw [List.foldlM_cons] at h
      obtain ⟨s₁, hact, h⟩ := exists_of_bind h
      refine (ih hnot.2 h).trans ?_
      cases act with
      | send _ _ =>
          cases hact
          rfl
      | connectionClose => exact hclose hact
      | connectionFree => exact absurd rfl hnot.1
      | closeSocket => exact hclose hact

/-- `res_handle` closes the connection and frees it. -/
theorem applyActs_resHandle {o : OpenConn} {s : EpollState} {rest : List (Addr × ConnBlock)}
    (hb : Blocks s.heap (o.blocks ++ rest)) {wire : ℕ → ℤ} (hwire : wire 0 ≠ -1)
    (hrecord : freeRecord o.record = .ok ()) (resStr : List UInt8) :
    ∃ heap, (resHandle wire resStr []).foldlM (applyAct o.conn) s
        = .ok { s.close o.socket with heap := heap } ∧ Blocks heap rest ∧ heap o.conn = none := by
  have hacts : resHandle wire resStr []
      = [.send resStr (wire 0), .connectionClose, .connectionFree] := by
    unfold resHandle
    simp [sendOn, sentBytes, hwire]
  have hclosed : Blocks (s.close o.socket).heap (o.blocks ++ rest) := hb
  obtain ⟨heap, hfree, hrest, hnone⟩ := OpenConn.free_eq hclosed hrecord
  refine ⟨heap, ?_, hrest, hnone⟩
  rw [hacts]
  show connectionClose o.conn s >>= (fun s => connectionFree o.conn s >>= fun s => .ok s) = _
  rw [OpenConn.close_eq hb, ok_bind, hfree]
  rfl

/-- Where it does, `send` has not failed and the request could be freed: a second release
is a fault. -/
theorem of_applyActs_resHandle {o : OpenConn} {s t : EpollState} {rest : List (Addr × ConnBlock)}
    (hb : Blocks s.heap (o.blocks ++ rest)) {wire : ℕ → ℤ} {resStr : List UInt8}
    (h : (resHandle wire resStr []).foldlM (applyAct o.conn) s = .ok t) :
    wire 0 ≠ -1 ∧ freeRecord o.record = .ok () := by
  have hclosed : Blocks (s.close o.socket).heap (o.blocks ++ rest) := hb
  have hfirst : ∀ acts, (.send resStr (wire 0) :: .connectionClose :: .connectionFree ::
      acts : List Act).foldlM (applyAct o.conn) s = .ok t →
      freeRecord o.record = .ok () ∧ ∃ s₁, s₁.heap o.conn = none ∧
        acts.foldlM (applyAct o.conn) s₁ = .ok t := by
    intro acts h
    have h : connectionClose o.conn s >>= (fun s => connectionFree o.conn s >>= fun s =>
        acts.foldlM (applyAct o.conn) s) = .ok t := h
    rw [OpenConn.close_eq hb, ok_bind] at h
    obtain ⟨s₁, hfree, h⟩ := exists_of_bind h
    have hrecord := OpenConn.record_of_free hclosed hfree
    obtain ⟨heap, hok, -, hnone⟩ := OpenConn.free_eq hclosed hrecord
    rw [hfree, Except.ok.injEq] at hok
    subst hok
    exact ⟨hrecord, _, hnone, h⟩
  by_cases hwire : wire 0 = -1
  · have hacts : resHandle wire resStr [] = [.send resStr (wire 0), .connectionClose,
        .connectionFree, .connectionClose, .connectionFree] := by
      unfold resHandle
      simp [sendOn, sentBytes, hwire]
    rw [hacts] at h
    obtain ⟨-, s₁, hnone, h⟩ := hfirst _ h
    obtain ⟨s₂, hclose, -⟩ := exists_of_bind h
    exact absurd hclose (not_connectionClose hnone)
  · have hacts : resHandle wire resStr []
        = [.send resStr (wire 0), .connectionClose, .connectionFree] := by
      unfold resHandle
      simp [sendOn, sentBytes, hwire]
    rw [hacts] at h
    exact ⟨hwire, (hfirst _ h).1⟩

/-! ## One connection that can be read from -/

/-- The request of a connection can be freed after what was received, and its answer releases
the connection once. -/
def ReleasesConn (junk : ℕ → PartJunk) (w : World) (g : CtlFunMap View) (files : FileList)
    (pid : ℤ) (spare : SpareByte) (resStr : List UInt8) (received : Option Received)
    (record : Request) : Prop :=
  match received with
  | none => freeRecord record = .ok ()
  | some b => ∃ request,
      epollReceive junk w.now pid spare record (recvInto resStr b) = .ok request ∧
      freeRecord request = .ok () ∧ ReleasesOnce (Container.handle .epoll w g files request)

section
variable {junk : ℕ → PartJunk} {w : World} {g : CtlFunMap View} {files : FileList} {pid : ℤ}
  {spare : SpareByte} {received : Option Received} {o : OpenConn} {s t : EpollState}
  {rest : List (Addr × ConnBlock)}

/-- The acts of an answer that releases once are those of `res_handle`. -/
theorem exists_resHandle {request : Request}
    (h : ReleasesOnce (Container.handle .epoll w g files request)) :
    ∃ resStr, Container.handle .epoll w g files request = .ok (resHandle w.wire resStr []) ∧
      w.wire 0 ≠ -1 := by
  obtain ⟨acts, hrun, hcounts⟩ := h
  obtain ⟨target, -, hanswer⟩ := exists_of_bind hrun
  rcases acts_of_run hanswer with ⟨resStr, rfl⟩ | hnot
  · exact ⟨resStr, hrun, (releasesOnce_resHandle _ _).mp ⟨_, rfl, hcounts⟩⟩
  · rw [List.count_eq_zero.mpr hnot] at hcounts
    exact absurd hcounts.2 (by decide)

/-- Such a connection is closed, and its blocks are freed. -/
theorem epollRead_eq (hb : Blocks s.heap (o.blocks ++ rest))
    (h : ReleasesConn junk w g files pid spare s.resStr received o.record) :
    ∃ heap resStr, epollRead junk w g files pid spare received o.conn s
        = .ok { s.close o.socket with heap := heap, resStr := resStr } ∧
      Blocks heap rest ∧ heap o.conn = none := by
  cases received with
  | none =>
      obtain ⟨heap, hfree, hrest, hnone⟩ :=
        OpenConn.free_eq (s := s.close o.socket) hb h
      refine ⟨heap, s.resStr, ?_, hrest, hnone⟩
      rw [epollRead, OpenConn.close_eq hb, ok_bind, hfree]
      rfl
  | some b =>
      obtain ⟨request, hparse, hrecord, honce⟩ := h
      obtain ⟨resStr, hacts, hwire⟩ := exists_resHandle honce
      obtain ⟨heap, hrun, hrest, hnone⟩ := applyActs_resHandle
        (s := { s with
          heap := s.heap.store o.c.req (.request request), resStr := recvInto s.resStr b })
        (OpenConn.store_request hb request) hwire hrecord resStr
      refine ⟨heap, recvInto s.resStr b, ?_, hrest, hnone⟩
      rw [epollRead, OpenConn.connection_eq hb, ok_bind, OpenConn.request_eq hb, ok_bind, hparse,
        ok_bind, hacts, ok_bind]
      exact hrun

/-- The loop goes on with the connection released exactly for such a request. -/
theorem epollRead_releases_iff (hb : Blocks s.heap (o.blocks ++ rest)) :
    (∃ t, epollRead junk w g files pid spare received o.conn s = .ok t ∧ t.heap o.conn = none) ↔
      ReleasesConn junk w g files pid spare s.resStr received o.record := by
  constructor
  · rintro ⟨t, hrun, hnone⟩
    cases received with
    | none =>
        rw [epollRead, OpenConn.close_eq hb, ok_bind] at hrun
        exact OpenConn.record_of_free (s := s.close o.socket) hb hrun
    | some b =>
        rw [epollRead, OpenConn.connection_eq hb, ok_bind, OpenConn.request_eq hb, ok_bind] at hrun
        obtain ⟨request, hparse, hrun⟩ := exists_of_bind hrun
        obtain ⟨acts, hacts, hrun⟩ := exists_of_bind hrun
        have hstored := OpenConn.store_request hb request
        obtain ⟨target, -, hanswer⟩ := exists_of_bind hacts
        rcases acts_of_run hanswer with ⟨resStr, rfl⟩ | hnot
        · obtain ⟨hwire, hrecord⟩ :=
            of_applyActs_resHandle (o := { o with record := request }) hstored hrun
          exact ⟨request, hparse, hrecord, hacts ▸ (releasesOnce_resHandle _ _).mpr hwire⟩
        · -- the connection would still be there
          have hthere : t.heap o.conn = some (.connection o.c) :=
            (congrFun (heap_of_applyActs hnot hrun) _).trans
              ((hstored.mem o.conn _).mpr (List.mem_append_left _ List.mem_cons_self))
          rw [hthere] at hnone
          cases hnone
  · intro h
    obtain ⟨heap, resStr, hrun, -, hnone⟩ := epollRead_eq hb h
    exact ⟨_, hrun, hnone⟩

end

/-! ## Well-formed requests -/

/-- A record that was filled from a request text is freed without a fault. -/
theorem RequestText.freeRecord_eq (r : RequestText) {junk : ℕ → PartJunk} {mem : RequestMem}
    {tail : List UInt8} {request : Request}
    (hparse : reqParseHttp junk (reqParseInit mem) (r.render ++ tail) = .ok request) :
    freeRecord request = .ok () := by
  obtain ⟨request', hparse', -, -, -, -, -, -, hbody, hnull, hnum⟩ :=
    r.exists_request junk mem tail
  obtain rfl : request' = request := Except.ok.inj (hparse'.symm.trans hparse)
  have hfree : reqFree request' = .ok ⟨request'.query, request'.params, request'.body, []⟩ := by
    rw [reqFree, hnum]
    rfl
  rw [freeRecord, hfree, ok_bind]
  by_cases hpost : r.method = bytes "POST"
  · simp only [(hbody hpost).1]
  · simp only [hnull hpost]
    rfl

/-- The upload of a form that the router gets, or it gets none; its record is freed without a
fault. -/
theorem Upload.exists_received (u : Upload) (junk : ℕ → PartJunk) (now : Tm) (pid : ℤ)
    (spare : SpareByte) (mem : RequestMem) (tail : List UInt8) :
    ∃ request, request.path = u.path ∧ freeRecord request = .ok () ∧
      ∀ request', epollReceive junk now pid spare (reqParseInit mem) (u.render ++ tail)
          = .ok request' ↔
        request = request' ∧ u.HasRoom spare ∧ Prints u.path ∧ 0 ∈ u.render ++ tail := by
  obtain ⟨head, multi, hparse, -, hpath, -, -, -, hmatches⟩ := u.exists_request junk mem tail
  obtain ⟨freed, hfree, -⟩ := hmatches.freed
  refine ⟨u.record head multi, hpath, ?_, ?_⟩
  · rw [freeRecord, hfree, ok_bind]
    obtain ⟨parts, -, hfreed⟩ := exists_of_bind hfree
    cases hfreed
    rfl
  · rw [u.hasRoom_iff, ← hpath]
    apply epollReceive_eq_ok_iff (u.headText tail) hparse
    · exact hpath ▸ u.path_spec.2.1.1
    · exact hpath ▸ Nat.lt_succ_of_le u.path_spec.2.2.2

section
variable (w : World) (g : CtlFunMap View) (files : FileList) (pid : ℤ) (spare : SpareByte)

theorem releasesConn_iff_of_received {junk : ℕ → PartJunk} {record request : Request}
    {resStr : List UInt8} {b : Received} {past : Prop}
    (hreceive : ∀ request', epollReceive junk w.now pid spare record (recvInto resStr b)
      = .ok request' ↔ request = request' ∧ past)
    (hfree : freeRecord request = .ok ()) :
    ReleasesConn junk w g files pid spare resStr (some b) record ↔
      past ∧ (∃ t, routerHandle g files request = .ok t ∧ (t.answer request).Fits w) ∧
        w.wire 0 ≠ -1 := by
  constructor
  · rintro ⟨request', hrun, -, honce⟩
    obtain ⟨rfl, hpast⟩ := (hreceive request').mp hrun
    exact ⟨hpast, (releasesOnce_routerAnswer w g files request).mp honce⟩
  · rintro ⟨hpast, h⟩
    exact ⟨request, (hreceive request).mpr ⟨rfl, hpast⟩, hfree,
      (releasesOnce_routerAnswer w g files request).mpr h⟩

/-- A well-formed request releases its connection exactly if the names and values that are copied
have room, its path can be logged, the buffer ends in a NUL somewhere, its answer has room and
`send` does not fail. -/
theorem RequestText.releasesConn_iff (r : RequestText) (hlen : r.render.length ≤ receiveMaxBytes)
    (junk : ℕ → PartJunk) (mem : RequestMem) (resStr : List UInt8) :
    ∃ request, request.path = r.path ∧
      (ReleasesConn junk w g files pid spare resStr (some ⟨r.render, hlen⟩) (reqParseInit mem) ↔
        (r.HasRoom spare ∧ Prints r.path ∧ 0 ∈ recvInto resStr ⟨r.render, hlen⟩) ∧
        (∃ t, routerHandle g files request = .ok t ∧ (t.answer request).Fits w) ∧
          w.wire 0 ≠ -1) := by
  obtain ⟨request, hcarries, hparse, hreceive⟩ :=
    r.exists_received junk w.now pid spare mem (resStr.drop r.render.length)
  exact ⟨request, hcarries.path,
    releasesConn_iff_of_received w g files pid spare hreceive (r.freeRecord_eq hparse)⟩

@[inherit_doc RequestText.releasesConn_iff]
theorem Upload.releasesConn_iff (u : Upload) (hlen : u.render.length ≤ receiveMaxBytes)
    (junk : ℕ → PartJunk) (mem : RequestMem) (resStr : List UInt8) :
    ∃ request, request.path = u.path ∧
      (ReleasesConn junk w g files pid spare resStr (some ⟨u.render, hlen⟩) (reqParseInit mem) ↔
        (u.HasRoom spare ∧ Prints u.path ∧ 0 ∈ recvInto resStr ⟨u.render, hlen⟩) ∧
        (∃ t, routerHandle g files request = .ok t ∧ (t.answer request).Fits w) ∧
          w.wire 0 ≠ -1) := by
  obtain ⟨request, hpath, hfree, hreceive⟩ :=
    u.exists_received junk w.now pid spare mem (resStr.drop u.render.length)
  exact ⟨request, hpath, releasesConn_iff_of_received w g files pid spare hreceive hfree⟩

end

/-! ## The loop -/

/-- `events[i]`: the listening socket, or what was given with the socket of a connection. -/
inductive EpollEvent : Type where
  | listener
  | data (conn : Addr)
  deriving DecidableEq

/-- `events[i].data.fd == i_listenfd`; of a pointer it is the lower half that is compared. -/
def EpollEvent.Accepts (listenfd : ℤ) : EpollEvent → Prop
  | .listener => True
  | .data conn => toInt conn.toNat = listenfd

/-- The state, and the `events` that have not been worked off. -/
structure EpollLoop where
  s : EpollState
  events : List EpollEvent

/-- What happens in a step. -/
inductive LoopEvent : Type where
  | waited
  | accepted (fd : ℤ) (conn : Addr)
  | answered (junk : ℕ → PartJunk) (w : World) (received : Option Received) (conn : Addr)

section
variable (listenfd : ℤ) (g : CtlFunMap View) (files : FileList) (pid : ℤ) (spare : SpareByte)

/-- A step of the loop; `log_write` is taken to come back. -/
inductive EpollStep : EpollLoop → LoopEvent → EpollLoop → Prop where
  /-- `epoll_wait`: no event twice, and those of connections are of watched ones. -/
  | wait {s : EpollState} {events : List EpollEvent} (distinct : events.Nodup)
      (room : events.length ≤ 1024)
      (watched : ∀ conn, .data conn ∈ events → ∃ fd, (fd, conn) ∈ s.watched) :
      EpollStep ⟨s, []⟩ .waited ⟨s, events⟩
  /-- `accept` returns a socket that is not in use, or -1. -/
  | accept {s : EpollState} {event : EpollEvent} {events : List EpollEvent} {fd : ℤ}
      {conn : Addr} {c : Connection} {mem : RequestMem} (accepts : event.Accepts listenfd)
      (unused : fd ∉ s.watched.map Prod.fst)
      (distinct : [c.req, c.perIoData, c.perHandleData, conn].Nodup)
      (fresh : ∀ a ∈ [c.req, c.perIoData, c.perHandleData, conn], a ≠ 0 ∧ s.heap a = none) :
      EpollStep ⟨s, event :: events⟩ (.accepted fd conn) ⟨epollAccept fd conn c mem s, events⟩
  /-- A connection is read from. -/
  | read {s t : EpollState} {conn : Addr} {events : List EpollEvent} {junk : ℕ → PartJunk}
      {w : World} {received : Option Received} (other : ¬(EpollEvent.data conn).Accepts listenfd)
      (ok : epollRead junk w g files pid spare received conn s = .ok t) :
      EpollStep ⟨s, .data conn :: events⟩ (.answered junk w received conn) ⟨t, events⟩

/-- Accepting does not fail, and the connection that is read from is released. -/
def GoesWell (l : EpollLoop) : LoopEvent → Prop
  | .waited => True
  | .accepted fd _ => fd ≠ -1
  | .answered junk w received conn => ∃ c record, l.s.heap conn = some (.connection c) ∧
      l.s.heap c.req = some (.request record) ∧
      ReleasesConn junk w g files pid spare l.s.resStr received record

end

/-- The loop before its first `epoll_wait`. -/
def epollStart (resStr : List UInt8) : EpollLoop := ⟨⟨fun _ => none, [], resStr⟩, []⟩

/-- The connections that were accepted in a run, and those that were answered. -/
def acceptedConns (es : List LoopEvent) : List Addr :=
  es.filterMap fun
    | .accepted _ conn => some conn
    | _ => none

@[inherit_doc acceptedConns] def answeredConns (es : List LoopEvent) : List Addr :=
  es.filterMap fun
    | .answered _ _ _ conn => some conn
    | _ => none

theorem acceptedConns_append (es : List LoopEvent) (e : LoopEvent) :
    acceptedConns (es ++ [e]) = acceptedConns es ++ acceptedConns [e] :=
  List.filterMap_append

theorem answeredConns_append (es : List LoopEvent) (e : LoopEvent) :
    answeredConns (es ++ [e]) = answeredConns es ++ answeredConns [e] :=
  List.filterMap_append

/-- What the memory holds are the blocks of the open connections, whose sockets are watched and
whose requests have not been parsed; the events that are left are of open connections, none of
them twice; and each connection that was accepted is open or was answered. -/
structure EpollLoop.Sound (l : EpollLoop) (es : List LoopEvent) (opens : List OpenConn) : Prop where
  blocks : Blocks l.s.heap (opens.flatMap OpenConn.blocks)
  watched : l.s.watched = opens.map fun o => (o.socket, o.conn)
  sockets : (opens.map OpenConn.socket).Nodup
  records : ∀ o ∈ opens, ∃ mem, o.record = reqParseInit mem
  distinct : l.events.Nodup
  pending : ∀ conn, .data conn ∈ l.events → ∃ o ∈ opens, o.conn = conn
  account : (acceptedConns es).Perm (answeredConns es ++ opens.map OpenConn.conn)

/-- The blocks of a connection come first, those of the others behind. -/
theorem blocks_apart {heap : Heap ConnBlock} {front behind : List OpenConn} {o : OpenConn}
    (h : Blocks heap ((front ++ o :: behind).flatMap OpenConn.blocks)) :
    Blocks heap (o.blocks ++ (front ++ behind).flatMap OpenConn.blocks) :=
  h.perm (List.perm_middle.flatMap_right _)

/-- The four blocks of a new connection. -/
theorem blocks_epollAccept {s : EpollState} {rest : List (Addr × ConnBlock)}
    (hb : Blocks s.heap rest) (fd : ℤ) {conn : Addr} {c : Connection} (mem : RequestMem)
    (hdistinct : [c.req, c.perIoData, c.perHandleData, conn].Nodup)
    (hfresh : ∀ a ∈ [c.req, c.perIoData, c.perHandleData, conn], a ≠ 0 ∧ s.heap a = none) :
    Blocks (epollAccept fd conn c mem s).heap
      (OpenConn.blocks ⟨conn, c, fd, reqParseInit mem⟩ ++ rest) := by
  simp only [List.nodup_cons, List.mem_cons, List.not_mem_nil, or_false, not_or] at hdistinct
  obtain ⟨⟨hreqIo, hreqHandle, hreqConn⟩, ⟨hioHandle, hioConn⟩, hhandleConn, -⟩ := hdistinct
  have hnone : ∀ a ∈ [c.req, c.perIoData, c.perHandleData, conn], s.heap a = none :=
    fun a ha => (hfresh a ha).2
  simp only [List.forall_mem_cons] at hnone
  obtain ⟨hreq, hio, hhandle, hconn, -⟩ := hnone
  have h₁ := hb.malloc hconn (.connection c)
  have h₂ := h₁.malloc (a := c.perHandleData)
    ((Heap.store_of_ne _ _ hhandleConn).trans hhandle) (.perHandleData fd)
  have h₃ := h₂.malloc (a := c.perIoData) (((Heap.store_of_ne _ _ hioHandle).trans
    (Heap.store_of_ne _ _ hioConn)).trans hio) .perIoData
  have h₄ := h₃.malloc (a := c.req) ((((Heap.store_of_ne _ _ hreqIo).trans
    (Heap.store_of_ne _ _ hreqHandle)).trans (Heap.store_of_ne _ _ hreqConn)).trans hreq)
    (.request (reqParseInit mem))
  exact h₄.perm ((List.reverse_perm (OpenConn.blocks ⟨conn, c, fd, reqParseInit mem⟩)).append_right
    rest)

section
variable {listenfd : ℤ} {g : CtlFunMap View} {files : FileList} {pid : ℤ} {spare : SpareByte}
  {l l' : EpollLoop} {es : List LoopEvent} {opens : List OpenConn}

/-- A connection that is read from is closed and freed, and the others stay as they are. -/
theorem EpollLoop.Sound.answer {s t : EpollState} {conn : Addr} {events : List EpollEvent}
    {junk : ℕ → PartJunk} {w : World} {received : Option Received}
    (h : EpollLoop.Sound ⟨s, .data conn :: events⟩ es opens)
    (hwell : GoesWell g files pid spare ⟨s, .data conn :: events⟩ (.answered junk w received conn))
    (hok : epollRead junk w g files pid spare received conn s = .ok t) :
    ∃ opens', EpollLoop.Sound ⟨t, events⟩ (es ++ [.answered junk w received conn]) opens' := by
  obtain ⟨o, ho, rfl⟩ := h.pending conn List.mem_cons_self
  obtain ⟨front, behind, rfl⟩ := List.append_of_mem ho
  have hb := blocks_apart h.blocks
  obtain ⟨c, record, hc, hrecord, hreleases⟩ := hwell
  obtain rfl : o.c = c := by
    have hthere := (hb.mem o.conn _).mpr (List.mem_append_left _ List.mem_cons_self)
    rw [hc] at hthere
    cases hthere
    rfl
  obtain rfl : o.record = record := by
    have hthere := (hb.mem o.c.req (.request o.record)).mpr (by simp [OpenConn.blocks])
    rw [hrecord] at hthere
    cases hthere
    rfl
  obtain ⟨heap, resStr, hrun, hrest, -⟩ := epollRead_eq hb hreleases
  rw [hok, Except.ok.injEq] at hrun
  subst hrun
  have hperm : (front ++ o :: behind).Perm (o :: (front ++ behind)) := List.perm_middle
  have hsockets : o.socket ∉ (front ++ behind).map OpenConn.socket :=
    (List.nodup_cons.mp ((hperm.map _).nodup_iff.mp h.sockets)).1
  obtain ⟨hnot, hdistinct⟩ := List.nodup_cons.mp h.distinct
  refine ⟨front ++ behind, hrest, ?_, ?_, ?_, hdistinct, ?_, ?_⟩
  · -- only the socket of the connection is closed
    have hkeep : ∀ l : List OpenConn, (∀ o' ∈ l, o'.socket ≠ o.socket) →
        (l.map fun o => (o.socket, o.conn)).filter (fun e => e.1 ≠ o.socket)
          = l.map fun o => (o.socket, o.conn) := by
      intro l hl
      apply List.filter_eq_self.mpr
      intro e he
      obtain ⟨o', ho', rfl⟩ := List.mem_map.mp he
      simpa using hl o' ho'
    have hothers : ∀ o' ∈ front ++ behind, o'.socket ≠ o.socket := by
      intro o' ho' heq
      exact hsockets (List.mem_map.mpr ⟨o', ho', heq⟩)
    show s.watched.filter (fun e => e.1 ≠ o.socket) = _
    rw [h.watched, List.map_append, List.map_cons, List.filter_append,
      List.filter_cons_of_neg (by simp), hkeep front, hkeep behind, List.map_append]
    · exact fun o' ho' => hothers o' (List.mem_append_right _ ho')
    · exact fun o' ho' => hothers o' (List.mem_append_left _ ho')
  · exact (List.nodup_cons.mp ((hperm.map _).nodup_iff.mp h.sockets)).2
  · intro o' ho'
    exact h.records o' (hperm.mem_iff.mpr (List.mem_cons_of_mem _ ho'))
  · intro conn hconn
    obtain ⟨o', ho', rfl⟩ := h.pending conn (List.mem_cons_of_mem _ hconn)
    refine ⟨o', ?_, rfl⟩
    rcases List.mem_cons.mp (hperm.mem_iff.mp ho') with rfl | ho'
    · exact absurd hconn hnot
    · exact ho'
  · rw [acceptedConns_append, answeredConns_append]
    show (acceptedConns es ++ []).Perm (answeredConns es ++ [o.conn] ++ _)
    rw [List.append_nil, List.append_assoc]
    exact h.account.trans ((hperm.map _).append_left _)

/-- What one step does. -/
theorem EpollStep.sound {e : LoopEvent} (hstep : EpollStep listenfd g files pid spare l e l')
    (hwell : GoesWell g files pid spare l e) (h : l.Sound es opens) :
    ∃ opens', l'.Sound (es ++ [e]) opens' := by
  cases hstep with
  | @wait s events hdistinct hroom hwatched =>
      refine ⟨opens, h.blocks, h.watched, h.sockets, h.records, hdistinct, ?_, ?_⟩
      · intro conn hconn
        obtain ⟨fd, hfd⟩ := hwatched conn hconn
        rw [h.watched] at hfd
        obtain ⟨o, ho, heq⟩ := List.mem_map.mp hfd
        exact ⟨o, ho, congrArg Prod.snd heq⟩
      · rw [acceptedConns_append, answeredConns_append]
        simpa [acceptedConns, answeredConns] using h.account
  | @accept s event events fd conn c mem haccepts hunused hdistinct hfresh =>
      have hfd : fd ≠ -1 := hwell
      have hsocket : fd ∉ opens.map OpenConn.socket := by
        rwa [h.watched, List.map_map] at hunused
      refine ⟨⟨conn, c, fd, reqParseInit mem⟩ :: opens,
        blocks_epollAccept h.blocks fd mem hdistinct hfresh, ?_,
        List.nodup_cons.mpr ⟨hsocket, h.sockets⟩, ?_, (List.nodup_cons.mp h.distinct).2, ?_, ?_⟩
      · show (if fd = -1 then s.watched else (fd, conn) :: s.watched) = _
        rw [if_neg hfd, h.watched]
        rfl
      · exact List.forall_mem_cons.mpr ⟨⟨mem, rfl⟩, h.records⟩
      · intro conn' hconn'
        obtain ⟨o, ho, hconn⟩ := h.pending conn' (List.mem_cons_of_mem _ hconn')
        exact ⟨o, List.mem_cons_of_mem _ ho, hconn⟩
      · rw [acceptedConns_append, answeredConns_append]
        show (acceptedConns es ++ [conn]).Perm (answeredConns es ++ [] ++ conn :: _)
        rw [List.append_nil]
        exact (List.perm_append_singleton _ _).trans
          ((h.account.cons conn).trans List.perm_middle.symm)
  | read hother hok => exact h.answer hwell hok

/-- From its start on, in every run of the loop in which accepting does not fail and every
connection that is read from is released. -/
theorem epollLoop_run {resStr : List UInt8}
    (h : Steps (fun l e l' => EpollStep listenfd g files pid spare l e l' ∧
      GoesWell g files pid spare l e) (epollStart resStr) es l) :
    ∃ opens, l.Sound es opens ∧ ∀ o ∈ opens, ∀ junk w received,
      (∃ t, epollRead junk w g files pid spare received o.conn l.s = .ok t ∧
          t.heap o.conn = none) ↔
        ReleasesConn junk w g files pid spare l.s.resStr received o.record := by
  have hall : ∃ opens, l.Sound es opens := by
    induction h with
    | nil =>
        exact ⟨[], Blocks.nil, rfl, List.nodup_nil, List.forall_mem_nil _, List.nodup_nil,
          fun conn hconn => absurd hconn List.not_mem_nil, List.Perm.refl _⟩
    | snoc _ hstep ih =>
        obtain ⟨opens, hsound⟩ := ih
        exact hstep.1.sound hstep.2 hsound
  obtain ⟨opens, hsound⟩ := hall
  refine ⟨opens, hsound, fun o ho junk w received => ?_⟩
  obtain ⟨front, behind, rfl⟩ := List.append_of_mem ho
  exact epollRead_releases_iff (blocks_apart hsound.blocks)

end

/-! ## A connection from its first block to its last -/

/-- A request for a page that is not there. -/
def missingPage : RequestText :=
  .get (bytes "/no") [] [] (by decide) (List.forall_mem_nil _) (List.forall_mem_nil _)

/-- A client connects, asks for the page and is answered; its blocks are gone then. -/
theorem epollLoop_run_missingPage : ∃ es l, acceptedConns es = [16] ∧ answeredConns es = [16] ∧
    EpollLoop.Sound l es [] := by
  let c : Connection := ⟨32, 48, 64⟩
  let conn : OpenConn := ⟨16, c, 5, reqParseInit .zero⟩
  let w := diskWorld none
  let text : Received := ⟨missingPage.render, by decide⟩
  let start := epollStart (resStrAfter [])
  let s := epollAccept 5 16 c .zero start.s
  have hb : Blocks s.heap (conn.blocks ++ []) :=
    blocks_epollAccept Blocks.nil 5 .zero (by decide) (by
      intro a ha
      refine ⟨?_, rfl⟩
      rintro rfl
      exact absurd ha (by decide))
  have hreleases : ReleasesConn (fun _ => .zero) w routerInit ⟨[], by decide⟩ 4711 chunkSpare
      s.resStr (some text) conn.record := by
    obtain ⟨request, hpath, hiff⟩ := missingPage.releasesConn_iff w routerInit ⟨[], by decide⟩
      4711 chunkSpare text.length_le (fun _ => .zero) .zero s.resStr
    have hroute : routerHandle (routerInit : CtlFunMap View) ⟨[], by decide⟩ request
        = .ok .notfound := by
      rw [holds_routerInit.routerHandle_eq (by decide) (by decide) (by rw [hpath]; decide)]
      rfl
    have hpast : missingPage.HasRoom chunkSpare ∧ Prints missingPage.path ∧
        0 ∈ recvInto s.resStr text :=
      ⟨by decide, prints_of_notMem (by decide), zero_mem_recvInto (by decide)⟩
    exact hiff.mpr ⟨hpast, ⟨_, hroute, trivial⟩, by decide⟩
  obtain ⟨heap, resStr, hread, -, -⟩ := epollRead_eq hb hreleases
  let t : EpollState := { s.close 5 with heap := heap, resStr := resStr }
  have hrun : Steps (fun l e l' => EpollStep 3 routerInit ⟨[], by decide⟩ 4711 chunkSpare
        l e l' ∧ GoesWell routerInit ⟨[], by decide⟩ 4711 chunkSpare l e) start
      [.waited, .accepted 5 16, .waited, .answered (fun _ => .zero) w (some text) 16] ⟨t, []⟩ := by
    apply Steps.cons (t := ⟨start.s, [.listener]⟩)
    · refine ⟨.wait (List.nodup_singleton _) (by decide) ?_, trivial⟩
      intro a ha
      cases List.mem_singleton.mp ha
    apply Steps.cons (t := ⟨s, []⟩)
    · refine ⟨.accept trivial List.not_mem_nil (by decide) ?_,
        show (5 : ℤ) ≠ -1 by decide⟩
      intro a ha
      refine ⟨?_, rfl⟩
      rintro rfl
      exact absurd ha (by decide)
    apply Steps.cons (t := ⟨s, [.data 16]⟩)
    · refine ⟨.wait (List.nodup_singleton _) (by decide) ?_, trivial⟩
      intro a ha
      cases List.mem_singleton.mp ha
      exact ⟨5, List.mem_cons_self⟩
    apply Steps.cons (t := ⟨t, []⟩)
    · have hother : toInt (16 : Addr).toNat ≠ 3 := by decide
      refine ⟨.read hother hread, c, conn.record, ?_, ?_, hreleases⟩
      · exact (hb.mem 16 _).mpr (by simp [OpenConn.blocks, conn])
      · exact (hb.mem 64 _).mpr (by simp [OpenConn.blocks, conn, c])
    · exact .nil
  obtain ⟨opens, hsound, -⟩ := epollLoop_run hrun
  have hempty : opens.map OpenConn.conn = [] := by
    have hlen := hsound.account.length_eq
    rw [List.length_append] at hlen
    exact List.eq_nil_of_length_eq_zero (Nat.add_eq_left.mp hlen.symm)
  obtain rfl := List.map_eq_nil_iff.mp hempty
  exact ⟨_, _, rfl, rfl, hsound⟩
