/-
  Ddm.Proxy.HandOff — how a connection gets from `do_accept` in the main thread to a
  worker, by `do_handle_notify`, and what becomes of its descriptor there.

  The descriptor travels as the bytes of an `int` through the worker's socket pair, which
  is never full here; both ends write an `int` the same way, in `be32` as in any other
  order. The worker's `recv` does not look at how many bytes it got. BEV_OPT_CLOSE_ON_FREE
  closes the descriptor with its bufferevent. The kernel gives out a descriptor that is not
  open, also one that was; `owner` is the worker `do_accept` chose when it was given out last.

  Proved, for every order of accepts, notifications, reads and errors: an open connection
  is with exactly one worker, once, in its socket pair or in its event base, and that is
  the chosen one; and no call is made on a descriptor that is not open (`handOff_safe`).
-/

import Ddm.Lib.Machine
import Ddm.Proxy.Server
import Ddm.Proxy.Workers

namespace Ddm.Proxy

open Ddm.Lib Workers

/-! ## The threads -/

structure HandOff (σ : Type) where
  server : Workers.Server
  /-- What each worker's `m_notify_receive_fd` has to read. -/
  pipes : Nat → Bytes
  /-- The bufferevents of each worker's event base. -/
  bevs : Nat → List (Nat × Conn σ)
  service : σ
  /-- The client descriptors that are open. -/
  opened : List Nat
  owner : Nat → Nat
  /-- The calls on descriptors that were not open. -/
  bad : Nat

variable {σ : Type}

/-- The descriptors in a socket pair. -/
def queued : Bytes → List Nat
  | a :: b :: c :: d :: rest => ofBe32 [a, b, c, d] :: queued rest
  | _ => []

/-- A call on `fd`. -/
def HandOff.uses (s : HandOff σ) (fd : Nat) : HandOff σ := { s with bad := s.bad + if fd ∈ s.opened then 0 else 1 }

/-- `do_accept`, with what `accept` returned. -/
def doAccept (s : HandOff σ) (fd : Int) : Option (HandOff σ) :=
  (Workers.doAccept s.server fd).map fun server =>
    if Accepted fd then
      let worker := (server.given.getLastD 0).toNat
      { s with
        server := server
        pipes := Function.update s.pipes worker (s.pipes worker ++ be32 fd.toNat)
        opened := fd.toNat :: s.opened
        owner := Function.update s.owner fd.toNat worker }
    else { s with server := server }

/-- `do_handle_notify`; without bytes to read `recv` fails, and the handler returns. -/
def doHandleNotify (s : HandOff σ) (worker : Nat) : HandOff σ :=
  let fd := (s.pipes worker).take 4
  if fd = [] then s
  else
    { s.uses (ofBe32 fd) with
      pipes := Function.update s.pipes worker ((s.pipes worker).drop 4)
      bevs := Function.update s.bevs worker (s.bevs worker ++ [(ofBe32 fd, .init s.service)]) }

/-- `bufferevent_free` -/
def bufferEventFree (s : HandOff σ) (worker fd : Nat) : HandOff σ :=
  { s.uses fd with
    bevs := Function.update s.bevs worker ((s.bevs worker).filter (·.1 ≠ fd))
    opened := s.opened.erase fd }

/-- libevent reads `chunk` and calls `readcb`. -/
def onRead (env : Env σ) (s : HandOff σ) (worker fd : Nat) (c : Conn σ) (chunk : Bytes) : HandOff σ :=
  let c := deliver env { c with service := s.service } chunk
  let s := { s.uses fd with
    service := c.service
    bevs := Function.update s.bevs worker ((s.bevs worker).map fun b => if b.1 = fd then (fd, c) else b) }
  if c.closed then bufferEventFree s worker fd else s

inductive Event where
  | accept (fd : Int)
  | notify (worker : Nat)
  | read (worker fd : Nat) (chunk : Bytes)
  /-- `errorcb` -/
  | error (worker fd : Nat)
  deriving DecidableEq

def handle (env : Env σ) (s : HandOff σ) : Event → Option (HandOff σ)
  | .accept fd => if 0 ≤ fd ∧ fd.toNat ∈ s.opened then none else doAccept s fd
  | .notify worker => some (doHandleNotify s worker)
  | .read worker fd chunk => ((s.bevs worker).lookup fd).map fun c => onRead env s worker fd c chunk
  | .error worker fd => ((s.bevs worker).lookup fd).map fun _ => bufferEventFree s worker fd

def HandOff.init (server : Workers.Server) (service : σ) : HandOff σ :=
  ⟨server, fun _ => [], fun _ => [], service, [], fun _ => 0, 0⟩

/-! ## Who has a connection -/

/-- The descriptors a worker has. -/
def holds (s : HandOff σ) (worker : Nat) : List Nat := queued (s.pipes worker) ++ (s.bevs worker).map (·.1)

structure Owned (n : Nat) (s : HandOff σ) : Prop where
  ran : ∃ k, Workers.Ran n s.server k
  whole : ∀ worker, 4 ∣ (s.pipes worker).length
  once : ∀ worker, (holds s worker).Nodup
  opened : s.opened.Nodup
  held : ∀ worker fd, fd ∈ holds s worker ↔ fd ∈ s.opened ∧ s.owner fd = worker
  inside : ∀ fd ∈ s.opened, s.owner fd < n
  good : s.bad = 0

/-! ## The bytes of the socket pairs -/

theorem four_bytes {p : Bytes} (hne : p ≠ []) (h : 4 ∣ p.length) :
    ∃ a b c d rest, p = a :: b :: c :: d :: rest ∧ 4 ∣ rest.length := by
  match p with
  | [] => exact absurd rfl hne
  | [_] => simp at h
  | [_, _] => simp at h
  | [_, _, _] => simp at h
  | a :: b :: c :: d :: rest => exact ⟨a, b, c, d, rest, rfl, by simp only [List.length_cons] at h; omega⟩

theorem queued_append {fd : Nat} (hfd : fd < 2 ^ 32) (p : Bytes) (h : 4 ∣ p.length) :
    queued (p ++ be32 fd) = queued p ++ [fd] := by
  induction p using queued.induct with
  | case1 a b c d rest ih =>
    simp only [List.length_cons] at h
    show _ :: queued (rest ++ be32 fd) = _ :: (queued rest ++ [fd])
    rw [ih (by omega)]
  | case2 p hp =>
    have hnil : p = [] := by
      by_contra hne
      obtain ⟨a, b, c, d, rest, he, -⟩ := four_bytes hne h
      exact hp a b c d rest he
    subst hnil
    have hback : ofBe32 (be32 fd) = fd := by
      have := ofBe32_be32 fd []
      rwa [List.append_nil, Nat.mod_eq_of_lt hfd] at this
    show ofBe32 (be32 fd) :: [] = _
    rw [hback]
    rfl

theorem queued_take {p : Bytes} (hne : p ≠ []) (h : 4 ∣ p.length) :
    queued p = ofBe32 (p.take 4) :: queued (p.drop 4) := by
  obtain ⟨a, b, c, d, rest, rfl, -⟩ := four_bytes hne h
  rfl

/-! ## One event -/

variable {n : Nat} {s t : HandOff σ} {env : Env σ}

/-- What a worker has, after a change to another's. -/
theorem holds_other {worker w : Nat} {pipe : Bytes} {bev : List (Nat × Conn σ)} {r : HandOff σ} (hw : w ≠ worker)
    (hp : r.pipes = Function.update s.pipes worker pipe) (hb : r.bevs = Function.update s.bevs worker bev) :
    holds r w = holds s w := by
  rw [holds, holds, hp, hb, Function.update_of_ne hw, Function.update_of_ne hw]

theorem uses_open {fd : Nat} (h : fd ∈ s.opened) : (s.uses fd).bad = s.bad := by
  rw [HandOff.uses, if_pos h]
  rfl

theorem Owned.free {worker fd : Nat} (h : Owned n s) (hfd : fd ∈ (s.bevs worker).map (·.1)) :
    Owned n (bufferEventFree s worker fd) := by
  have hheld : fd ∈ holds s worker := List.mem_append_right _ hfd
  obtain ⟨hopen, howner⟩ := (h.held worker fd).mp hheld
  have hbevs : ((s.bevs worker).filter (·.1 ≠ fd)).map (·.1) = ((s.bevs worker).map (·.1)).filter (· ≠ fd) := by
    rw [List.filter_map]
    rfl
  have hqueued : fd ∉ queued (s.pipes worker) := fun hq => (List.nodup_append.mp (h.once worker)).2.2 _ hq _ hfd rfl
  have hself : holds (bufferEventFree s worker fd) worker = (holds s worker).filter (· ≠ fd) := by
    show queued (s.pipes worker) ++ (Function.update s.bevs worker _ worker).map (·.1) = _
    rw [Function.update_self, hbevs, holds, List.filter_append]
    congr 1
    refine (List.filter_eq_self.mpr fun x hx => ?_).symm
    have hne : x ≠ fd := fun he => hqueued (he ▸ hx)
    simpa using hne
  have hother : ∀ w, w ≠ worker → holds (bufferEventFree s worker fd) w = holds s w := fun w hw =>
    holds_other hw (Function.update_eq_self ..).symm rfl
  have hmem : ∀ x, x ∈ s.opened.erase fd ↔ x ≠ fd ∧ x ∈ s.opened := fun x => h.opened.mem_erase_iff
  refine ⟨h.ran, h.whole, fun w => ?_, h.opened.erase _, fun w x => ?_, fun x hx => ?_,
    (uses_open hopen).trans h.good⟩
  · by_cases hw : w = worker
    · rw [hw, hself]
      exact (h.once worker).filter _
    · rw [hother w hw]
      exact h.once w
  · show _ ↔ x ∈ s.opened.erase fd ∧ s.owner x = w
    rw [hmem]
    by_cases hw : w = worker
    · rw [hw, hself, List.mem_filter, h.held]
      simp only [decide_eq_true_eq]
      tauto
    · rw [hother w hw, h.held]
      constructor
      · intro hx
        refine ⟨⟨fun he => hw ?_, hx.1⟩, hx.2⟩
        rw [← hx.2, he, howner]
      · exact fun hx => ⟨hx.1.2, hx.2⟩
  · exact h.inside x (List.mem_of_mem_erase hx)

theorem Owned.notify (h : Owned n s) (worker : Nat) : Owned n (doHandleNotify s worker) := by
  unfold doHandleNotify
  dsimp only
  split
  case isTrue => exact h
  case isFalse htake =>
    have hne : s.pipes worker ≠ [] := fun he => htake (by rw [he]; rfl)
    have hqueue := queued_take hne (h.whole worker)
    set fd := ofBe32 ((s.pipes worker).take 4)
    set t : HandOff σ := { s.uses fd with
      pipes := Function.update s.pipes worker ((s.pipes worker).drop 4)
      bevs := Function.update s.bevs worker (s.bevs worker ++ [(fd, .init s.service)]) } with ht
    have hself : (holds t worker).Perm (holds s worker) := by
      have hl : holds t worker = queued ((s.pipes worker).drop 4) ++ ((s.bevs worker).map (·.1) ++ [fd]) := by
        rw [holds, ht]
        dsimp only
        rw [Function.update_self, Function.update_self, List.map_append]
        rfl
      rw [hl, holds, hqueue, ← List.append_assoc]
      exact List.perm_append_singleton _ _
    have hother : ∀ w, w ≠ worker → holds t w = holds s w := fun w hw => holds_other hw rfl rfl
    have hmem : fd ∈ holds s worker := by
      rw [holds, hqueue]
      exact List.mem_append_left _ List.mem_cons_self
    have hopen := ((h.held worker fd).mp hmem).1
    have hperm : ∀ w, (holds t w).Perm (holds s w) := fun w => by
      by_cases hw : w = worker
      · rw [hw]
        exact hself
      · rw [hother w hw]
    refine ⟨h.ran, fun w => ?_, fun w => (hperm w).nodup_iff.mpr (h.once w), h.opened,
      fun w x => ((hperm w).mem_iff).trans (h.held w x), h.inside, (uses_open hopen).trans h.good⟩
    have hwhole := h.whole worker
    by_cases hw : w = worker
    · rw [hw, ht]
      dsimp only
      rw [Function.update_self, List.length_drop]
      omega
    · rw [ht]
      dsimp only
      rw [Function.update_of_ne hw]
      exact h.whole w

theorem mem_of_lookup {l : List (Nat × Conn σ)} {fd : Nat} {c : Conn σ} (h : l.lookup fd = some c) :
    fd ∈ l.map (·.1) := by
  obtain ⟨a, b, rfl, -⟩ := List.lookup_eq_some_iff.mp h
  simp

theorem Owned.read {worker fd : Nat} {c : Conn σ} (h : Owned n s) (hfd : fd ∈ (s.bevs worker).map (·.1))
    (chunk : Bytes) : Owned n (onRead env s worker fd c chunk) := by
  have hopen := ((h.held worker fd).mp (List.mem_append_right _ hfd)).1
  have hkeep (c : Conn σ) : ((s.bevs worker).map fun b => if b.1 = fd then (fd, c) else b).map (·.1) =
      (s.bevs worker).map (·.1) := by
    rw [List.map_map]
    refine List.map_congr_left fun b _ => ?_
    show (if b.1 = fd then (fd, c) else b).1 = b.1
    split
    case isTrue he => exact he.symm
    case isFalse => rfl
  unfold onRead
  dsimp only
  generalize deliver env { c with service := s.service } chunk = c
  set t : HandOff σ := { s.uses fd with
    service := c.service
    bevs := Function.update s.bevs worker ((s.bevs worker).map fun b => if b.1 = fd then (fd, c) else b) } with ht
  have hholds : ∀ w, holds t w = holds s w := fun w => by
    by_cases hw : w = worker
    · rw [hw, holds, ht]
      dsimp only
      rw [Function.update_self, hkeep]
      rfl
    · exact holds_other hw (Function.update_eq_self ..).symm rfl
  have howned : Owned n t :=
    ⟨h.ran, h.whole, fun w => by rw [hholds]; exact h.once w, h.opened, fun w x => by rw [hholds]; exact h.held w x,
      h.inside, (uses_open hopen).trans h.good⟩
  split
  · refine howned.free ?_
    rw [ht]
    dsimp only
    rw [Function.update_self, hkeep]
    exact hfd
  · exact howned

theorem Owned.accept {fd : Int} (h : Owned n s) (hn : 0 < n) (hfree : ¬(0 ≤ fd ∧ fd.toNat ∈ s.opened))
    (hs : doAccept s fd = some t) : Owned n t := by
  obtain ⟨k, hran⟩ := h.ran
  obtain ⟨server, hcall, rfl⟩ := Option.map_eq_some_iff.mp hs
  by_cases hacc : Accepted fd
  · obtain ⟨server', hcall', hran'⟩ := doAccept_accepted hran hn hacc
    obtain rfl := Option.some.inj (hcall'.symm.trans hcall)
    rw [if_pos hacc]
    have hsize : fdSetSize = 1024 := rfl
    have hrange := hacc.2
    have hsmall : fd.toNat < 2 ^ 32 := by omega
    have hnew : fd.toNat ∉ s.opened := fun hmem => hfree ⟨hacc.1, hmem⟩
    have hworker : (server'.given.getLastD 0).toNat < n := by
      have hne : server'.given ≠ [] := List.ne_nil_of_length_pos (by rw [hran'.length]; omega)
      have hmem : server'.given.getLastD 0 ∈ server'.given := by
        rw [List.getLastD_eq_getLast?, List.getLast?_eq_some_getLast hne]
        exact List.getLast_mem hne
      have := hran'.inside _ hmem
      omega
    generalize (server'.given.getLastD 0).toNat = worker at hworker
    set t : HandOff σ := { s with
      server := server'
      pipes := Function.update s.pipes worker (s.pipes worker ++ be32 fd.toNat)
      opened := fd.toNat :: s.opened
      owner := Function.update s.owner fd.toNat worker } with ht
    have hself : (holds t worker).Perm (fd.toNat :: holds s worker) := by
      have hl : holds t worker = queued (s.pipes worker) ++ [fd.toNat] ++ (s.bevs worker).map (·.1) := by
        rw [holds, ht]
        dsimp only
        rw [Function.update_self, queued_append hsmall _ (h.whole worker)]
      rw [hl, holds, List.append_assoc]
      exact List.perm_middle
    have hother : ∀ w, w ≠ worker → holds t w = holds s w := fun w hw =>
      holds_other hw rfl (Function.update_eq_self ..).symm
    have hunheld : ∀ w, fd.toNat ∉ holds s w := fun w hmem => hnew ((h.held w _).mp hmem).1
    refine ⟨⟨_, hran'⟩, fun w => ?_, fun w => ?_, List.nodup_cons.mpr ⟨hnew, h.opened⟩, fun w x => ?_,
      fun x hx => ?_, h.good⟩
    · by_cases hw : w = worker
      · rw [hw, ht]
        dsimp only
        rw [Function.update_self, List.length_append]
        exact Nat.dvd_add (h.whole worker) (Nat.dvd_refl 4)
      · rw [ht]
        dsimp only
        rw [Function.update_of_ne hw]
        exact h.whole w
    · by_cases hw : w = worker
      · rw [hw, hself.nodup_iff]
        exact List.nodup_cons.mpr ⟨hunheld worker, h.once worker⟩
      · rw [hother w hw]
        exact h.once w
    · show _ ↔ x ∈ fd.toNat :: s.opened ∧ Function.update s.owner fd.toNat worker x = w
      rw [List.mem_cons]
      by_cases hx : x = fd.toNat
      · -- the new descriptor is with the chosen worker only
        subst hx
        rw [Function.update_self]
        by_cases hw : w = worker
        · rw [hw, hself.mem_iff]
          simp
        · rw [hother w hw]
          exact ⟨fun hmem => absurd hmem (hunheld w), fun hmem => absurd hmem.2.symm hw⟩
      · have hmem : x ∈ holds t w ↔ x ∈ holds s w := by
          by_cases hw : w = worker
          · rw [hw, hself.mem_iff, List.mem_cons]
            simp [hx]
          · rw [hother w hw]
        rw [hmem, h.held, Function.update_of_ne hx]
        simp [hx]
    · show Function.update s.owner fd.toNat worker x < n
      by_cases he : x = fd.toNat
      · rw [he, Function.update_self]
        exact hworker
      · rw [Function.update_of_ne he]
        exact h.inside x ((List.mem_cons.mp hx).resolve_left he)
  · obtain ⟨server', hcall', hran'⟩ := doAccept_other hran hacc
    obtain rfl := Option.some.inj (hcall'.symm.trans hcall)
    rw [if_neg hacc]
    exact ⟨⟨k, hran'⟩, h.whole, h.once, h.opened, h.held, h.inside, h.good⟩

/-! ## A run -/

theorem handle_owned (hn : 0 < n) (h : Owned n s) (e : Event) (ht : handle env s e = some t) : Owned n t := by
  cases e with
  | accept fd =>
    simp only [handle] at ht
    split at ht
    case isTrue => simp at ht
    case isFalse hfree => exact h.accept hn hfree ht
  | notify worker =>
    obtain rfl := Option.some.inj ht
    exact h.notify worker
  | read worker fd chunk =>
    obtain ⟨c, hc, rfl⟩ := Option.map_eq_some_iff.mp ht
    exact h.read (mem_of_lookup hc) chunk
  | error worker fd =>
    obtain ⟨c, hc, rfl⟩ := Option.map_eq_some_iff.mp ht
    exact h.free (mem_of_lookup hc)

theorem owned_init {server : Workers.Server} (h : Workers.Ran n server 0) (service : σ) :
    Owned n (HandOff.init server service) :=
  ⟨⟨0, h⟩, fun _ => Nat.dvd_zero 4, fun _ => List.nodup_nil, List.nodup_nil, fun worker fd => by
    simp [HandOff.init, holds, queued], fun fd hfd => by simp [HandOff.init] at hfd, rfl⟩

/-- A worker's notifications, until its socket pair is empty. -/
theorem Owned.notified (worker : Nat) {k : Nat} : ∀ {s : HandOff σ}, Owned n s →
    (queued (s.pipes worker)).length = k →
    ∃ t, (List.replicate k (Event.notify worker)).foldlM (handle env) s = some t ∧
      t.opened = s.opened ∧ t.owner = s.owner ∧ Owned n t ∧ queued (t.pipes worker) = [] := by
  induction k with
  | zero => exact fun h hk => ⟨_, rfl, rfl, rfl, h, List.eq_nil_of_length_eq_zero hk⟩
  | succ k ih =>
    intro s h hk
    have hne : s.pipes worker ≠ [] := fun he => by rw [he] at hk; exact absurd hk (Nat.succ_ne_zero k).symm
    have htake : (s.pipes worker).take 4 ≠ [] := by
      obtain ⟨a, b, c, d, rest, he, -⟩ := four_bytes hne (h.whole worker)
      rw [he]
      exact List.cons_ne_nil a _
    have hcall : (doHandleNotify s worker).pipes worker = (s.pipes worker).drop 4 ∧
        (doHandleNotify s worker).opened = s.opened ∧ (doHandleNotify s worker).owner = s.owner := by
      rw [doHandleNotify]
      dsimp only
      rw [if_neg htake]
      exact ⟨Function.update_self .., rfl, rfl⟩
    rw [queued_take hne (h.whole worker), List.length_cons] at hk
    obtain ⟨t, hrun, ho, hw, hinv, hempty⟩ := ih (h.notify worker) (by rw [hcall.1]; omega)
    refine ⟨t, ?_, ho.trans hcall.2.1, hw.trans hcall.2.2, hinv, hempty⟩
    rw [List.replicate_succ, List.foldlM_cons]
    exact hrun

/-- The threads after the startup, through any events: an open connection is with the worker
    it was given to, once, and with no other; nobody has one that is not open, or makes a call
    on it; and when a worker has read all its notifications, it has a bufferevent for each of
    its connections. -/
theorem handOff_safe {threadNum : Int} {server : Workers.Server} (hstart : startup threadNum = some server)
    (hpos : 0 < threadNum) (service : σ) {events : List Event}
    (hrun : events.foldlM (handle env) (.init server service) = some s) :
    (∀ fd ∈ s.opened, s.owner fd < threadNum.toNat ∧ (holds s (s.owner fd)).count fd = 1 ∧
      ∀ worker, worker ≠ s.owner fd → fd ∉ holds s worker) ∧
    (∀ worker, ∀ fd ∈ holds s worker, fd ∈ s.opened) ∧ s.bad = 0 ∧
    ∀ worker, ∃ t,
      (List.replicate (queued (s.pipes worker)).length (Event.notify worker)).foldlM (handle env) s = some t ∧
      ∀ fd ∈ s.opened, s.owner fd = worker → fd ∈ (t.bevs worker).map (·.1) := by
  have h : Owned threadNum.toNat s :=
    Machine.foldlM_inv (I := fun _ s => Owned threadNum.toNat s) (owned_init (ran_startup hstart) service)
      (fun _ _ _ _ hs => handle_owned (by omega) hs _) hrun
  refine ⟨fun fd hfd => ⟨h.inside fd hfd, ?_, fun worker hw hmem => hw ((h.held worker fd).mp hmem).2.symm⟩,
    fun worker fd hfd => ((h.held worker fd).mp hfd).1, h.good, fun worker => ?_⟩
  · exact List.count_eq_one_of_mem (h.once _) ((h.held _ fd).mpr ⟨hfd, rfl⟩)
  · obtain ⟨t, ht, ho, hw, hinv, hempty⟩ := @Owned.notified _ _ env worker _ _ h rfl
    refine ⟨t, ht, fun fd hfd hown => ?_⟩
    have hmem : fd ∈ holds t worker := (hinv.held worker fd).mpr ⟨ho ▸ hfd, by rw [hw]; exact hown⟩
    rwa [holds, hempty, List.nil_append] at hmem

/-- Two workers; descriptor 5 is closed, and given out again. -/
def sampleEvents : List Event :=
  [.accept 5, .notify 0, .accept 6, .read 0 5 [1, 2], .error 0 5, .accept 5, .notify 1, .accept 7]

theorem handOff_safe_sample :
    ∃ server s, startup 2 = some server ∧
      sampleEvents.foldlM (handle sampleEnv) (.init server ()) = some s ∧ s.opened = [7, 5, 6] ∧
      (∀ fd ∈ s.opened, s.owner fd < 2 ∧ (holds s (s.owner fd)).count fd = 1 ∧
        ∀ worker, worker ≠ s.owner fd → fd ∉ holds s worker) ∧
      (∀ worker, ∀ fd ∈ holds s worker, fd ∈ s.opened) ∧ s.bad = 0 ∧
      ∀ worker, ∃ t,
        (List.replicate (queued (s.pipes worker)).length (Event.notify worker)).foldlM (handle sampleEnv) s = some t ∧
        ∀ fd ∈ s.opened, s.owner fd = worker → fd ∈ (t.bevs worker).map (·.1) := by
  refine ⟨_, _, rfl, rfl, rfl, @handOff_safe Unit _ sampleEnv 2 _ rfl (by decide) () sampleEvents rfl⟩

end Ddm.Proxy
