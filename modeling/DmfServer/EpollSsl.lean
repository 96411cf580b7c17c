/-
# The TLS connections of `epoll_ssl_container`

The sockets and their `SSL` objects are a linked list behind a first node that `malloc`
returned and whose `fd` nobody sets.  A new connection is put behind that node; for an
event the list is walked from it to a node with the socket of the event, or to the last
node, and the node in front of it is remembered for the unlinking.

The walk finds the node of the socket unless the socket happens to be what is in the `fd`
of the first node.  The loop that cleans up at the end does not walk at all: it ends only
if the list is empty.  In every run that meets neither, every event is served with the
`SSL` object of its socket (`ssl_run`).
-/
import DmfServer.LinkedList
import DmfServer.StepSystem

open CMem StepSystem

/-- `fd_ssl_map`. -/
structure FdSslMap (Ssl : Type) where
  fd : ℤ
  ssl : Ssl
  next : Addr
  deriving DecidableEq

section
variable {Ssl : Type}

/-! ## What the loop does -/

/-- `p->next = q`. -/
def setNext (heap : Heap (FdSslMap Ssl)) (p q : Addr) : Except Fault (Heap (FdSslMap Ssl)) := do
  let node ← heap.load p
  .ok (heap.store p { node with next := q })

/-- The new node `per` for an accepted connection. -/
def sslAccept (heap : Heap (FdSslMap Ssl)) (head per : Addr) (fd : ℤ) (ssl : Ssl) :
    Except Fault (Heap (FdSslMap Ssl)) := do
  let heap := heap.store per { fd := fd, ssl := ssl, next := 0 }
  let first ← heap.load head
  if first.next = 0 then setNext heap head per
  else do
    let heap ← setNext heap per first.next
    setNext heap head per

/-- The walk with `it` and `pre`, of at most `fuel` rounds. -/
def sslWalk (heap : Heap (FdSslMap Ssl)) (fd : ℤ) : ℕ → Addr → Addr → Except Fault (Addr × Addr)
  | 0, _, _ => .error .loop
  | fuel + 1, it, pre => do
      let node ← heap.load it
      if node.next ≠ 0 then
        if node.fd = fd then .ok (it, pre) else sslWalk heap fd fuel node.next it
      else .ok (it, pre)

/-- The walk from the first node; what is in `pre` before it moves is `junk`. -/
def sslFind (heap : Heap (FdSslMap Ssl)) (head : Addr) (fd : ℤ) (junk : Addr) :
    Except Fault (Addr × Addr) :=
  sslWalk heap fd (2 ^ 64) head junk

/-- The branch of a hang-up: the `SSL` object it frees, and the list without the node. -/
def sslHangUp (heap : Heap (FdSslMap Ssl)) (head : Addr) (fd : ℤ) (junk : Addr) :
    Except Fault (Ssl × Heap (FdSslMap Ssl)) := do
  let (it, pre) ← sslFind heap head fd junk
  let node ← heap.load it
  let heap ← if node.next = 0 then setNext heap pre 0 else .ok heap
  let again ← heap.load it
  let heap ← setNext heap pre again.next
  .ok (node.ssl, heap)

/-- The loop that cleans up, of at most `fuel` rounds, and what it has closed and freed. -/
def sslCleanUp (heap : Heap (FdSslMap Ssl)) (it : Addr) :
    ℕ → List (ℤ × Ssl) → Except Fault (List (ℤ × Ssl))
  | 0, _ => .error .loop
  | fuel + 1, closed => do
      let node ← heap.load it
      if node.next ≠ 0 then sslCleanUp heap it fuel (closed ++ [(node.fd, node.ssl)])
      else .ok closed

/-! ## The runs -/

/-- The list, the sockets that were accepted and have not hung up, and whether the loop over
the events still runs. -/
structure SslState (Ssl : Type) where
  heap : Heap (FdSslMap Ssl)
  opened : List ℤ
  running : Bool

/-- What happens in a step. -/
inductive SslEvent (Ssl : Type) : Type where
  /-- A connection is accepted, and gets the node at `per`. -/
  | accepted (per : Addr) (fd : ℤ) (ssl : Ssl)
  /-- There is something to read, and `ssl` is what it is read with. -/
  | readable (fd : ℤ) (ssl : Ssl)
  /-- A client has gone, and `ssl` is what is freed. -/
  | hungUp (fd : ℤ) (ssl : Ssl)
  /-- `epoll_wait` fails, and the loop is left. -/
  | broke

/-- A step of the container. -/
inductive SslStep (head : Addr) : SslState Ssl → SslEvent Ssl → SslState Ssl → Prop where
  /-- The system hands out a socket that is not open, and `malloc` a new node. -/
  | accept {s : SslState Ssl} {per : Addr} {fd : ℤ} {ssl : Ssl} {heap : Heap (FdSslMap Ssl)}
      (running : s.running = true) (new : fd ∉ s.opened) (null : per ≠ 0)
      (fresh : s.heap per = none) (ok : sslAccept s.heap head per fd ssl = .ok heap) :
      SslStep head s (.accepted per fd ssl)
        { s with heap := heap, opened := fd :: s.opened }
  | read {s : SslState Ssl} {fd : ℤ} {it pre junk : Addr} {node : FdSslMap Ssl}
      (running : s.running = true) (opened : fd ∈ s.opened)
      (ok : sslFind s.heap head fd junk = .ok (it, pre)) (node_eq : s.heap it = some node) :
      SslStep head s (.readable fd node.ssl) s
  | hangUp {s : SslState Ssl} {fd : ℤ} {junk : Addr} {ssl : Ssl} {heap : Heap (FdSslMap Ssl)}
      (running : s.running = true) (opened : fd ∈ s.opened)
      (ok : sslHangUp s.heap head fd junk = .ok (ssl, heap)) :
      SslStep head s (.hungUp fd ssl)
        { s with heap := heap, opened := s.opened.filter (· ≠ fd) }
  | leave {s : SslState Ssl} (running : s.running = true) :
      SslStep head s .broke { s with running := false }

/-- Before the first event: the node `malloc` returned, and what is in it. -/
def sslStart (head : Addr) (headFd : ℤ) (headSsl : Ssl) : SslState Ssl :=
  { heap := fun a => if a = head then some { fd := headFd, ssl := headSsl, next := 0 } else none
    opened := [], running := true }

/-- An event is for another socket than the first node happens to have, and the loop is left
only when no connection is open. -/
def SslApart (headFd : ℤ) (s : SslState Ssl) : SslEvent Ssl → Prop
  | .accepted _ _ _ => True
  | .readable fd _ => fd ≠ headFd
  | .hungUp fd _ => fd ≠ headFd
  | .broke => s.opened = []

/-! ## What they are for -/

/-- A node of the list: where it is, the socket and the `SSL` object created for it. -/
structure SslNode (Ssl : Type) where
  addr : Addr
  fd : ℤ
  ssl : Ssl

/-- What an event is to do to the nodes. -/
def SslEvent.apply (nodes : List (SslNode Ssl)) : SslEvent Ssl → List (SslNode Ssl)
  | .accepted per fd ssl => { addr := per, fd := fd, ssl := ssl } :: nodes
  | .hungUp fd _ => nodes.filter (·.fd ≠ fd)
  | .readable _ _ => nodes
  | .broke => nodes

/-- The nodes there are to be behind a run. -/
def sslNodes (es : List (SslEvent Ssl)) : List (SslNode Ssl) := es.foldl SslEvent.apply []

/-- The event has been served with the `SSL` object of its socket. -/
def SslEvent.Selects (nodes : List (SslNode Ssl)) : SslEvent Ssl → Prop
  | .readable fd ssl => ∃ node ∈ nodes, node.fd = fd ∧ node.ssl = ssl
  | .hungUp fd ssl => ∃ node ∈ nodes, node.fd = fd ∧ node.ssl = ssl
  | _ => True

/-- The nodes behind the first one are these, with their sockets and `SSL` objects in them. -/
structure SslList (head : Addr) (headFd : ℤ) (heap : Heap (FdSslMap Ssl))
    (nodes : List (SslNode Ssl)) : Prop where
  chain : Seg FdSslMap.next heap head (head :: nodes.map SslNode.addr) 0
  first : (heap head).map FdSslMap.fd = some headFd
  holds : ∀ node ∈ nodes, (heap node.addr).map (fun n => (n.fd, n.ssl)) = some (node.fd, node.ssl)
  sockets : (nodes.map SslNode.fd).Nodup

/-- What is promised of a run. -/
structure SslSound (head : Addr) (headFd : ℤ) (s : SslState Ssl) (es : List (SslEvent Ssl)) :
    Prop where
  /-- Every open socket has its node, and no other node is in the list. -/
  list : SslList head headFd s.heap (sslNodes es)
  opened : (sslNodes es).map SslNode.fd = s.opened
  /-- Every event was served with the object of its socket. -/
  selected : ∀ before e behind, es = before ++ e :: behind → e.Selects (sslNodes before)
  /-- The walk for the next event finds the node of its socket. -/
  finds : ∀ node ∈ sslNodes es, node.fd ≠ headFd →
    ∀ junk, ∃ pre, sslFind s.heap head node.fd junk = .ok (node.addr, pre)
  /-- The loop at the end closes and frees every node that is left, and ends. -/
  cleans : s.running = false → ∃ fuel closed, sslCleanUp s.heap head fuel [] = .ok closed ∧
    closed.Perm ((sslNodes es).map fun node => (node.fd, node.ssl))

/-! ## The walk -/

/-- The walk comes to the first node with the socket, if the last node has it or an earlier
one. -/
theorem sslWalk_eq {heap : Heap (FdSslMap Ssl)} {fd : ℤ} {p a : Addr} {as bs : List Addr}
    (s : Seg FdSslMap.next heap p (as ++ a :: bs) 0)
    (hother : ∀ b ∈ as, (heap b).map FdSslMap.fd ≠ some fd)
    (hfd : (heap a).map FdSslMap.fd = some fd) {fuel : ℕ} (hfuel : as.length < fuel) (pre : Addr) :
    sslWalk heap fd fuel p pre = .ok (a, as.getLastD pre) := by
  induction as generalizing p fuel pre with
  | nil =>
      obtain ⟨rfl, -, n, hn, -⟩ := s.cons_inv
      obtain ⟨fuel, rfl⟩ := Nat.exists_eq_add_one_of_ne_zero (Nat.ne_of_gt hfuel)
      rw [hn, Option.map_some, Option.some.injEq] at hfd
      rw [sslWalk, Heap.load_eq hn, ok_bind, if_pos hfd]
      split <;> rfl
  | cons b as ih =>
      obtain ⟨rfl, -, n, hn, rest⟩ := s.cons_inv
      obtain ⟨fuel, rfl⟩ := Nat.exists_eq_add_one_of_ne_zero (Nat.ne_of_gt
        (Nat.lt_of_le_of_lt (Nat.zero_le _) hfuel))
      have hnot : n.fd ≠ fd := by
        have hb := hother p List.mem_cons_self
        rw [hn] at hb
        exact fun heq => hb (congrArg some heq)
      have hmore : n.next ≠ 0 := by
        intro hz
        rw [List.append_eq, hz] at rest
        have hnil := rest.unique (.nil 0)
        simp at hnil
      rw [sslWalk, Heap.load_eq hn, ok_bind, if_pos hmore, if_neg hnot, List.getLastD_cons]
      exact ih rest (fun c hc => hother c (List.mem_cons_of_mem _ hc))
        (Nat.lt_of_succ_lt_succ hfuel) p

/-- `p->next = q` leaves sockets and `SSL` objects alone. -/
theorem map_store_next {heap : Heap (FdSslMap Ssl)} {p : Addr} {n : FdSslMap Ssl}
    (hn : heap p = some n) (q a : Addr) {α : Type} (g : ℤ × Ssl → α) :
    (heap.store p { n with next := q } a).map (fun n => g (n.fd, n.ssl)) =
      (heap a).map fun n => g (n.fd, n.ssl) :=
  Heap.map_store hn _ (by rfl) a

/-- Without one of the nodes the others are left. -/
theorem filter_fd_ne {front back : List (SslNode Ssl)} {node : SslNode Ssl}
    (h : ((front ++ node :: back).map SslNode.fd).Nodup) :
    (front ++ node :: back).filter (·.fd ≠ node.fd) = front ++ back := by
  rw [List.map_append, List.map_cons, List.nodup_append] at h
  obtain ⟨-, hback, hapart⟩ := h
  rw [List.filter_append, List.filter_cons_of_neg (by simp), List.filter_eq_self.mpr,
    List.filter_eq_self.mpr]
  · intro other hother
    have hne : other.fd ≠ node.fd := fun heq =>
      (List.nodup_cons.mp hback).1 (heq ▸ List.mem_map_of_mem hother)
    simpa using hne
  · intro other hother
    have hne := hapart other.fd (List.mem_map_of_mem hother) node.fd List.mem_cons_self
    simpa using hne

namespace SslList

variable {head : Addr} {headFd : ℤ} {heap : Heap (FdSslMap Ssl)} {nodes : List (SslNode Ssl)}

/-- The socket in a node. -/
theorem fd_eq (h : SslList head headFd heap nodes) {node : SslNode Ssl} (hnode : node ∈ nodes) :
    (heap node.addr).map FdSslMap.fd = some node.fd := by
  obtain ⟨n, hn, heq⟩ := Option.map_eq_some_iff.mp (h.holds node hnode)
  rw [hn, Option.map_some, ← (Prod.mk.inj heq).1]

/-- The walk finds the node of a socket, and the node in front of it. -/
theorem find {front back : List (SslNode Ssl)} {node : SslNode Ssl}
    (h : SslList head headFd heap (front ++ node :: back)) (hfd : node.fd ≠ headFd) (junk : Addr) :
    sslFind heap head node.fd junk = .ok (node.addr, (front.map SslNode.addr).getLastD head) := by
  have hchain := h.chain
  have hlen := hchain.length_lt
  rw [List.map_append, List.map_cons] at hchain hlen
  have hshort : (head :: front.map SslNode.addr).length < 2 ^ 64 := ?_
  have hwalk := sslWalk_eq hchain ?_ (h.fd_eq (by simp)) hshort junk
  · rw [List.getLastD_cons] at hwalk
    exact hwalk
  · intro b hb
    rcases List.mem_cons.mp hb with rfl | hb
    · rw [h.first]
      exact fun heq => hfd (Option.some.inj heq).symm
    · obtain ⟨other, hother, rfl⟩ := List.mem_map.mp hb
      rw [h.fd_eq (List.mem_append_left _ hother)]
      have hsockets := h.sockets
      rw [List.map_append, List.map_cons, List.nodup_append] at hsockets
      have hne := hsockets.2.2 other.fd (List.mem_map_of_mem hother) node.fd List.mem_cons_self
      exact fun heq => hne (Option.some.inj heq)
  · simp only [List.length_cons, List.length_append, List.length_map] at hlen ⊢
    omega

/-- A hang-up frees the `SSL` object of the socket, and takes its node out of the list. -/
theorem hangUp {front back : List (SslNode Ssl)} {node : SslNode Ssl}
    (h : SslList head headFd heap (front ++ node :: back)) (hfd : node.fd ≠ headFd) (junk : Addr) :
    ∃ heap', sslHangUp heap head node.fd junk = .ok (node.ssl, heap') ∧
      SslList head headFd heap' (front ++ back) := by
  -- `pre` is the last node before the one that is found, and may be the first of all
  obtain ⟨as, has⟩ : ∃ as, head :: front.map SslNode.addr =
      as ++ [(front.map SslNode.addr).getLastD head] := by
    refine ⟨(head :: front.map SslNode.addr).dropLast, ?_⟩
    rw [← List.getLast_eq_getLastD (List.cons_ne_nil _ _), List.dropLast_append_getLast]
  have hfind := h.find hfd junk
  generalize (front.map SslNode.addr).getLastD head = pre at has hfind
  have hchain := h.chain
  rw [List.map_append, List.map_cons, ← List.cons_append, has, List.append_assoc,
    List.singleton_append] at hchain
  obtain ⟨p, hp⟩ := hchain.mem_heap pre (by simp)
  obtain ⟨n, hn, hkey⟩ := Option.map_eq_some_iff.mp (h.holds node (by simp))
  have hapart : node.addr ≠ pre := by
    have hnodup := hchain.nodup
    rw [List.nodup_append] at hnodup
    intro heq
    exact (List.nodup_cons.mp hnodup.2.1).1 (heq ▸ List.mem_cons_self)
  have hhang : sslHangUp heap head node.fd junk =
      .ok (node.ssl, heap.store pre { p with next := n.next }) := by
    unfold sslHangUp setNext
    rw [hfind]
    simp only [ok_bind, Heap.load_eq hn, (Prod.mk.inj hkey).2]
    -- at the end of the list `pre->next` is written first, and then read as `NULL`
    by_cases hlast : n.next = 0
    · rw [if_pos hlast, Heap.load_eq hp]
      simp only [ok_bind, Heap.load_eq ((Heap.store_of_ne heap _ hapart).trans hn),
        Heap.load_eq (Heap.store_self heap pre _), hlast]
      unfold Heap.store
      rw [Function.update_idem]
    · rw [if_neg hlast]
      simp only [ok_bind, Heap.load_eq hp]
  refine ⟨_, hhang, ?_, ?_, fun other hother => ?_, ?_⟩
  · have hunlinked := hchain.unlink (m := { p with next := n.next }) hp hn rfl
    rw [List.map_append, ← List.cons_append, has, List.append_assoc, List.singleton_append]
    exact hunlinked
  · exact (map_store_next hp n.next head Prod.fst).trans h.first
  · refine (map_store_next hp n.next other.addr id).trans (h.holds other ?_)
    rcases List.mem_append.mp hother with hother | hother
    · exact List.mem_append_left _ hother
    · exact List.mem_append_right _ (List.mem_cons_of_mem _ hother)
  · refine h.sockets.sublist (List.Sublist.map _ ?_)
    exact List.Sublist.append_left (List.sublist_cons_self _ _) _

/-- An accepted connection gets a node behind the first one. -/
theorem accept (h : SslList head headFd heap nodes) {per : Addr} (hnull : per ≠ 0)
    (hfresh : heap per = none) {fd : ℤ} (hfd : fd ∉ nodes.map SslNode.fd) (ssl : Ssl) :
    ∃ heap', sslAccept heap head per fd ssl = .ok heap' ∧
      SslList head headFd heap' ({ addr := per, fd := fd, ssl := ssl } :: nodes) := by
  have hnew : ∀ a, (heap a).isSome → a ≠ per := by
    rintro a ha rfl
    rw [hfresh] at ha
    cases ha
  have hmem : ∀ a ∈ head :: nodes.map SslNode.addr, a ≠ per := by
    intro a ha
    obtain ⟨n, hn⟩ := h.chain.mem_heap a ha
    exact hnew a (by rw [hn]; rfl)
  obtain ⟨first, hfirst⟩ := h.chain.mem_heap head List.mem_cons_self
  -- the new node, and what it points to
  have hstored : ∀ next, Seg FdSslMap.next (heap.store per { fd := fd, ssl := ssl, next := next })
      head (head :: nodes.map SslNode.addr) 0 := by
    intro next
    exact h.chain.congr fun a ha => Heap.store_of_ne _ _ (hmem a ha)
  have hhead : ∀ next, heap.store per { fd := fd, ssl := ssl, next := next } head = some first := by
    intro next
    rw [Heap.store_of_ne _ _ (hmem head List.mem_cons_self), hfirst]
  have haccept : sslAccept heap head per fd ssl =
      .ok ((heap.store per { fd := fd, ssl := ssl, next := first.next }).store head
        { first with next := per }) := by
    unfold sslAccept setNext
    simp only [Heap.load_eq (hhead 0), ok_bind]
    by_cases hlast : first.next = 0
    · rw [if_pos hlast, hlast]
    · rw [if_neg hlast]
      simp only [Heap.load_eq (Heap.store_self heap per _), ok_bind]
      have htwice : (heap.store per { fd := fd, ssl := ssl, next := 0 }).store per
          { fd := fd, ssl := ssl, next := first.next } =
          heap.store per { fd := fd, ssl := ssl, next := first.next } := by
        unfold Heap.store
        rw [Function.update_idem]
      rw [htwice, Heap.load_eq (hhead first.next), ok_bind]
  refine ⟨_, haccept, ?_, ?_, ?_, ?_⟩
  · have hfront : Seg FdSslMap.next (heap.store per { fd := fd, ssl := ssl, next := first.next })
        head ([] ++ head :: nodes.map SslNode.addr) 0 := hstored first.next
    exact hfront.link (m := { first with next := per }) (hhead _) hnull
      (fun hm => hmem per hm rfl) (Heap.store_self _ _ _) rfl rfl
  · rw [Heap.store_self, ← h.first, hfirst]
    rfl
  · intro node hnode
    refine (map_store_next (hhead first.next) per node.addr id).trans ?_
    rcases List.mem_cons.mp hnode with rfl | hnode
    · rw [Heap.store_self]
      rfl
    · rw [Heap.store_of_ne _ _ (hmem _ (List.mem_cons_of_mem _ (List.mem_map_of_mem hnode)))]
      exact h.holds node hnode
  · rw [List.map_cons]
    exact List.nodup_cons.mpr ⟨hfd, h.sockets⟩

/-- The loop at the end, with no node left. -/
theorem cleanUp_nil (h : SslList head headFd heap []) :
    sslCleanUp heap head 1 [] = .ok [] := by
  obtain ⟨-, -, n, hn, hend⟩ := h.chain.cons_inv
  rw [sslCleanUp, Heap.load_eq hn, ok_bind, if_neg (by rw [hend.nil_inv]; simp)]

/-- The loop at the end never ends with a node left: it stays at the first one. -/
theorem cleanUp_cons {node : SslNode Ssl} (h : SslList head headFd heap (node :: nodes))
    (fuel : ℕ) (closed : List (ℤ × Ssl)) : sslCleanUp heap head fuel closed = .error .loop := by
  obtain ⟨-, -, n, hn, rest⟩ := h.chain.cons_inv
  rw [List.map_cons] at rest
  obtain ⟨hnext, hne, -⟩ := rest.cons_inv
  induction fuel generalizing closed with
  | zero => rfl
  | succ fuel ih =>
      rw [sslCleanUp, Heap.load_eq hn, ok_bind, if_pos (by rw [hnext]; exact hne)]
      exact ih _

/-- With a node in the list, the walk for the socket in the first node stays there. -/
theorem find_first {node : SslNode Ssl} (h : SslList head headFd heap (node :: nodes))
    (junk : Addr) : sslFind heap head headFd junk = .ok (head, junk) := by
  obtain ⟨-, -, n, hn, rest⟩ := h.chain.cons_inv
  rw [List.map_cons] at rest
  obtain ⟨hnext, hne, -⟩ := rest.cons_inv
  have hfd := h.first
  rw [hn, Option.map_some, Option.some.injEq] at hfd
  unfold sslFind
  rw [show (2 : ℕ) ^ 64 = 2 ^ 64 - 1 + 1 from by norm_num, sslWalk, Heap.load_eq hn, ok_bind,
    if_pos (by rw [hnext]; exact hne), if_pos hfd]

end SslList

/-! ## Every run -/

theorem sslNodes_append (es : List (SslEvent Ssl)) (e : SslEvent Ssl) :
    sslNodes (es ++ [e]) = e.apply (sslNodes es) :=
  List.foldl_append

/-- What a step keeps: the nodes are those of the open sockets, and the loop has not been
left with one of them open. -/
structure SslAccounts (head : Addr) (headFd : ℤ) (s : SslState Ssl) (es : List (SslEvent Ssl)) :
    Prop where
  list : SslList head headFd s.heap (sslNodes es)
  opened : (sslNodes es).map SslNode.fd = s.opened
  left : s.running = false → s.opened = []

/-- The node of an open socket. -/
theorem SslAccounts.exists_node {head : Addr} {headFd : ℤ} {s : SslState Ssl}
    {es : List (SslEvent Ssl)} (h : SslAccounts head headFd s es) {fd : ℤ} (hfd : fd ∈ s.opened) :
    ∃ front node back, sslNodes es = front ++ node :: back ∧ node.fd = fd := by
  rw [← h.opened] at hfd
  obtain ⟨node, hnode, rfl⟩ := List.mem_map.mp hfd
  obtain ⟨front, back, hsplit⟩ := List.append_of_mem hnode
  exact ⟨front, node, back, hsplit, rfl⟩

/-- What one step keeps, and which object it uses. -/
theorem SslStep.accounts {head : Addr} {headFd : ℤ} {s t : SslState Ssl} {e : SslEvent Ssl}
    {es : List (SslEvent Ssl)} (hstep : SslStep head s e t) (hapart : SslApart headFd s e)
    (h : SslAccounts head headFd s es) :
    SslAccounts head headFd t (es ++ [e]) ∧ e.Selects (sslNodes es) := by
  cases hstep with
  | @accept per fd ssl heap hrunning hnew hnull hfresh hok =>
      rw [← h.opened] at hnew
      obtain ⟨heap', hok', hlist⟩ := h.list.accept hnull hfresh hnew ssl
      rw [hok, Except.ok.injEq] at hok'
      subst hok'
      refine ⟨⟨?_, ?_, ?_⟩, trivial⟩
      · rw [sslNodes_append]
        exact hlist
      · rw [sslNodes_append, ← h.opened]
        rfl
      · intro hleft
        rw [hrunning] at hleft
        cases hleft
  | @read fd it pre junk n hrunning hopened hok hn =>
      -- the walk comes to the node of the socket, and the object in it is read
      obtain ⟨front, node, back, hsplit, rfl⟩ := h.exists_node hopened
      have hlist := h.list
      rw [hsplit] at hlist
      have hfind := hlist.find hapart junk
      rw [hok, Except.ok.injEq, Prod.mk.injEq] at hfind
      obtain ⟨rfl, -⟩ := hfind
      have hmem : node ∈ front ++ node :: back := by simp
      have hheld := hlist.holds node hmem
      rw [hn, Option.map_some, Option.some.injEq, Prod.mk.injEq] at hheld
      refine ⟨⟨?_, ?_, h.left⟩, node, hsplit ▸ hmem, rfl, hheld.2.symm⟩
      · rw [sslNodes_append]
        exact h.list
      · rw [sslNodes_append]
        exact h.opened
  | @hangUp fd junk ssl heap hrunning hopened hok =>
      obtain ⟨front, node, back, hsplit, rfl⟩ := h.exists_node hopened
      have hlist := h.list
      rw [hsplit] at hlist
      obtain ⟨heap', hok', hnext⟩ := hlist.hangUp hapart junk
      rw [hok, Except.ok.injEq, Prod.mk.injEq] at hok'
      obtain ⟨rfl, rfl⟩ := hok'
      refine ⟨⟨?_, ?_, ?_⟩, node, hsplit ▸ by simp, rfl, rfl⟩
      · rw [sslNodes_append, SslEvent.apply, hsplit, filter_fd_ne hlist.sockets]
        exact hnext
      · rw [sslNodes_append, SslEvent.apply]
        show _ = s.opened.filter (· ≠ node.fd)
        rw [← h.opened, List.filter_map]
        rfl
      · intro hleft
        rw [hrunning] at hleft
        cases hleft
  | leave hrunning =>
      refine ⟨⟨?_, ?_, fun _ => hapart⟩, trivial⟩
      · rw [sslNodes_append]
        exact h.list
      · rw [sslNodes_append]
        exact h.opened

/-- In every run in which no event is for the socket that the first node happens to have, and
the loop is left with no connection open, every event is served with the object of its
socket. -/
theorem ssl_run {head : Addr} (hhead : head ≠ 0) {headFd : ℤ} {headSsl : Ssl}
    {es : List (SslEvent Ssl)} {s : SslState Ssl}
    (h : Steps (fun s e t => SslStep head s e t ∧ SslApart headFd s e)
      (sslStart head headFd headSsl) es s) : SslSound head headFd s es := by
  have hall : SslAccounts head headFd s es ∧
      ∀ before e behind, es = before ++ e :: behind → e.Selects (sslNodes before) := by
    induction h with
    | nil =>
        have hfirst : (sslStart head headFd headSsl).heap head =
            some { fd := headFd, ssl := headSsl, next := 0 } := if_pos rfl
        refine ⟨⟨⟨.cons hhead hfirst (.nil 0), ?_, by simp [sslNodes], List.nodup_nil⟩, rfl, ?_⟩,
          ?_⟩
        · rw [hfirst]
          rfl
        · intro hleft
          rfl
        · intro before e behind heq
          simp at heq
    | @snoc t u es e _ hstep ih =>
        obtain ⟨hacc, hselected⟩ := ih
        obtain ⟨hnext, hevent⟩ := hstep.1.accounts hstep.2 hacc
        refine ⟨hnext, fun before e' behind heq => ?_⟩
        -- the event is the last one, or one of the run so far
        rcases List.eq_nil_or_concat behind with rfl | ⟨behind, last, rfl⟩
        · obtain ⟨rfl, hlast⟩ := List.append_inj' heq rfl
          cases hlast
          exact hevent
        · rw [List.concat_eq_append, ← List.cons_append, ← List.append_assoc] at heq
          obtain ⟨rfl, -⟩ := List.append_inj' heq rfl
          exact hselected before e' behind rfl
  obtain ⟨hacc, hselected⟩ := hall
  refine ⟨hacc.list, hacc.opened, hselected, fun node hnode hfd junk => ?_, fun hleft => ?_⟩
  · obtain ⟨front, back, hsplit⟩ := List.append_of_mem hnode
    have hlist := hacc.list
    rw [hsplit] at hlist
    exact ⟨_, hlist.find hfd junk⟩
  · have hnone := hacc.opened
    rw [hacc.left hleft, List.map_eq_nil_iff] at hnone
    have hlist := hacc.list
    rw [hnone] at hlist ⊢
    exact ⟨1, [], hlist.cleanUp_nil, List.Perm.refl _⟩

end

/-! ## Two connections -/

/-- The list before the first event, with the first node at 16. -/
theorem sslStart_list (headFd : ℤ) (headSsl : ℕ) :
    SslList 16 headFd (sslStart 16 headFd headSsl).heap ([] : List (SslNode ℕ)) where
  chain := .cons (by decide) rfl (.nil 0)
  first := rfl
  holds := by simp
  sockets := List.nodup_nil

/-- Two connections are accepted; the first one is read from, and both hang up. -/
theorem ssl_run_two : ∃ s : SslState ℕ, SslSound 16 0 s [.accepted 32 5 100, .accepted 48 6 101,
    .readable 5 100, .hungUp 5 100, .hungUp 6 101, .broke] := by
  have hlist₀ := sslStart_list 0 7
  obtain ⟨heap₁, hok₁, hlist₁⟩ := hlist₀.accept (show (32 : Addr) ≠ 0 by decide) rfl
    (show (5 : ℤ) ∉ [] by simp) 100
  have hfresh : heap₁ 48 = none := by
    cases hok₁
    rfl
  obtain ⟨heap₂, hok₂, hlist₂⟩ := hlist₁.accept (show (48 : Addr) ≠ 0 by decide) hfresh
    (show (6 : ℤ) ∉ [5] by decide) 101
  have hfind := @SslList.find _ _ _ _ [⟨48, 6, 101⟩] _ _ hlist₂ (show (5 : ℤ) ≠ 0 by decide) 0
  obtain ⟨⟨fd, ssl, next⟩, hn, hkey⟩ :=
    Option.map_eq_some_iff.mp (hlist₂.holds ⟨32, 5, 100⟩ (by simp))
  obtain ⟨rfl, rfl⟩ := Prod.mk.inj hkey
  obtain ⟨heap₃, hok₃, hlist₃⟩ := @SslList.hangUp _ _ _ _ [⟨48, 6, 101⟩] _ _ hlist₂
    (show (5 : ℤ) ≠ 0 by decide) 0
  obtain ⟨heap₄, hok₄, -⟩ := @SslList.hangUp _ _ _ _ [] _ _ hlist₃ (show (6 : ℤ) ≠ 0 by decide) 0
  have haccept₁ : SslStep 16 (sslStart 16 0 7) (.accepted 32 5 100) ⟨heap₁, [5], true⟩ :=
    .accept rfl (by simp [sslStart]) (by decide) rfl hok₁
  have haccept₂ : SslStep 16 ⟨heap₁, [5], true⟩ (.accepted 48 6 101) ⟨heap₂, [6, 5], true⟩ :=
    .accept rfl (show (6 : ℤ) ∉ [5] by decide) (by decide) hfresh hok₂
  have hread : SslStep 16 ⟨heap₂, [6, 5], true⟩ (.readable 5 100) ⟨heap₂, [6, 5], true⟩ :=
    @SslStep.read ℕ 16 ⟨heap₂, [6, 5], true⟩ 5 32 48 0 ⟨5, 100, next⟩ rfl
      (show (5 : ℤ) ∈ [6, 5] by decide) hfind hn
  have hhang₁ : SslStep 16 ⟨heap₂, [6, 5], true⟩ (.hungUp 5 100) ⟨heap₃, [6], true⟩ :=
    .hangUp rfl (show (5 : ℤ) ∈ [6, 5] by decide) hok₃
  have hhang₂ : SslStep 16 ⟨heap₃, [6], true⟩ (.hungUp 6 101) ⟨heap₄, [], true⟩ :=
    .hangUp rfl (show (6 : ℤ) ∈ [6] by decide) hok₄
  have hleave : SslStep 16 ⟨heap₄, [], true⟩ .broke ⟨heap₄, [], false⟩ := .leave rfl
  refine ⟨_, ssl_run (by decide) ((((((Steps.nil.snoc ⟨haccept₁, trivial⟩).snoc
    ⟨haccept₂, trivial⟩).snoc ⟨hread, ?_⟩).snoc ⟨hhang₁, ?_⟩).snoc ⟨hhang₂, ?_⟩).snoc
    ⟨hleave, rfl⟩)⟩
  · show (5 : ℤ) ≠ 0
    decide
  · show (5 : ℤ) ≠ 0
    decide
  · show (6 : ℤ) ≠ 0
    decide

/-- With 5 in the first node, socket 5 is served with what is in its `ssl`; and whatever is in
it, the clean-up of one open connection never ends. -/
theorem not_ssl_run :
    (¬ ∀ (es : List (SslEvent ℕ)) (s : SslState ℕ),
      Steps (SslStep 16) (sslStart 16 5 7) es s → SslSound 16 5 s es) ∧
    ¬ ∀ (es : List (SslEvent ℕ)) (s : SslState ℕ),
      Steps (SslStep 16) (sslStart 16 0 7) es s → SslSound 16 0 s es := by
  constructor
  · intro hall
    obtain ⟨heap, hok, hlist⟩ := (sslStart_list 5 7).accept (show (32 : Addr) ≠ 0 by decide) rfl
      (show (5 : ℤ) ∉ [] by simp) 100
    obtain ⟨n, hn, hkey⟩ : ∃ n, heap 16 = some n ∧ n.ssl = 7 := by
      cases hok
      exact ⟨_, rfl, rfl⟩
    have haccept : SslStep 16 (sslStart 16 5 7) (.accepted 32 5 100) ⟨heap, [5], true⟩ :=
      .accept rfl (by simp [sslStart]) (by decide) rfl hok
    have hread : SslStep 16 ⟨heap, [5], true⟩ (.readable 5 n.ssl) ⟨heap, [5], true⟩ :=
      .read rfl (List.mem_singleton_self 5) (hlist.find_first 0) hn
    have hsound := hall _ _ ((Steps.nil.snoc haccept).snoc hread)
    obtain ⟨node, hnode, -, hssl⟩ := hsound.selected [.accepted 32 5 100] _ [] rfl
    obtain rfl := List.mem_singleton.mp hnode
    rw [hkey] at hssl
    cases hssl
  · intro hall
    obtain ⟨heap, hok, hlist⟩ := (sslStart_list 0 7).accept (show (32 : Addr) ≠ 0 by decide) rfl
      (show (5 : ℤ) ∉ [] by simp) 100
    have haccept : SslStep 16 (sslStart 16 0 7) (.accepted 32 5 100) ⟨heap, [5], true⟩ :=
      .accept rfl (by simp [sslStart]) (by decide) rfl hok
    have hleave : SslStep 16 ⟨heap, [5], true⟩ .broke ⟨heap, [5], false⟩ := .leave rfl
    have hsound := hall _ _ ((Steps.nil.snoc haccept).snoc hleave)
    obtain ⟨fuel, closed, hends, -⟩ := hsound.cleans rfl
    rw [hlist.cleanUp_cons fuel []] at hends
    cases hends
