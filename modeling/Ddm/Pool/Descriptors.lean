/-
  Ddm.Pool.Descriptors — which sockets of a pool are open.

  `Accounted m l`: the open sockets are those of the connections `l`, one each, and
  nothing was closed twice. Setting up a connection that is already in a list keeps it,
  whatever `connect` answers, since the object keeps its socket. A new object is freed
  when `conn_connect` fails, and `free` closes nothing: if `socket()` gave a descriptor
  and `connect` was refused, it stays open with no owner.

  Proved: a step keeps the accounts if and only if it has no such refusal
  (`accounted_step_iff`), so runs without one keep them throughout
  (`descriptors_accounted`); against a provider that refuses, a request that returns
  NULL leaves a socket open (`refused_connect_leaks`).
-/

import Ddm.Pool.Runs

namespace Ddm.Pool.Linked

open Ddm.Lib
open LinkedList (Chain)
open Machine (Reach exec)

variable {κ : Type} [Inhabited κ]

/-! ## Sockets -/

theorem connConnect_isOpen (h : Heap κ) (conn : Nat) (r : Connect) (now : Timeval) (fd : Nat) :
    ((connConnect h conn r now).2.socks fd).isOpen = true ↔
      (h.socks fd).isOpen = true ∨ r ≠ .noSocket ∧ fd = h.nextSock := by
  cases r with
  | noSocket => simp [connConnect, setConn]
  | refused =>
    by_cases hfd : fd = h.nextSock <;> simp [connConnect, setConn, newSock, setSock, hfd]
  | accepted =>
    by_cases hfd : fd = h.nextSock <;> simp [connConnect, setConn, newSock, setSock, hfd]

theorem connConnect_sockFd (h : Heap κ) (conn : Nat) (r : Connect) (now : Timeval) :
    ((connConnect h conn r now).2.conns conn).sockFd = if r = .noSocket then none else some h.nextSock := by
  cases r <;> simp [connConnect, setConn]

omit [Inhabited κ] in
theorem connDisconnect_sockFd (h : Heap κ) (conn c : Nat) :
    ((Pool.connDisconnect h conn).2.conns c).sockFd = (h.conns c).sockFd := by
  rw [connDisconnect_conns]
  by_cases hc : c = conn
  · subst hc; simp only [setConn, Function.update_self]
  · simp only [setConn, Function.update_of_ne hc]

omit [Inhabited κ] in
theorem connDisconnect_isOpen (h : Heap κ) (conn fd : Nat) :
    ((Pool.connDisconnect h conn).2.socks fd).isOpen = true ↔
      (h.socks fd).isOpen = true ∧ (h.conns conn).sockFd ≠ some fd := by
  by_cases hs : (h.conns conn).sockFd = some fd
  · simp only [hs, ne_eq, not_true_eq_false, and_false, iff_false]
    simp only [Pool.connDisconnect, hs]
    split
    · simp [setSock, setConn]
    · rename_i ho; exact ho
  · rw [(connDisconnect_frame h conn).2.2.2.2.2 fd hs]
    simp [hs]

/-! ## Accounts -/

structure Accounted (m : Mem κ) (l : List Nat) : Prop where
  fds : Fds m.heap
  sockets : ∀ fd, (m.heap.socks fd).isOpen = true ↔ ∃ c ∈ l, (m.heap.conns c).sockFd = some fd
  once : m.closed.Nodup
  closed : ∀ fd ∈ m.closed, fd < m.heap.nextSock ∧ (m.heap.socks fd).isOpen = false

/-- A socket is open that none of `l` has. -/
def Leaked (m : Mem κ) (l : List Nat) : Prop :=
  ∃ fd, (m.heap.socks fd).isOpen = true ∧ fd < m.heap.nextSock ∧ ∀ c ∈ l, (m.heap.conns c).sockFd ≠ some fd

variable {m m' : Mem κ} {l l' : List Nat} {conn : Nat} {pool : LinkedPool} {us ds : List Nat}

omit [Inhabited κ] in
theorem Leaked.not_accounted (hl : Leaked m l) : ¬ Accounted m l := fun ha => by
  obtain ⟨fd, ho, -, hno⟩ := hl
  obtain ⟨c, hc, hs⟩ := (ha.sockets fd).mp ho
  exact hno c hc hs

omit [Inhabited κ] in
theorem Accounted.congr (ha : Accounted m l) (hl : ∀ c, c ∈ l' ↔ c ∈ l) : Accounted m l' :=
  ⟨ha.fds, fun fd => by simp only [ha.sockets fd, hl], ha.once, ha.closed⟩

omit [Inhabited κ] in
/-- Links do not matter, nor what else of a connection changes. -/
theorem Accounted.frame (ha : Accounted m l) (hf : Fds m'.heap) (hs : m'.heap.socks = m.heap.socks)
    (hn : m'.heap.nextSock = m.heap.nextSock) (hc : ∀ c ∈ l, (m'.heap.conns c).sockFd = (m.heap.conns c).sockFd)
    (hcl : m'.closed = m.closed) : Accounted m' l := by
  refine ⟨hf, fun fd => ?_, hcl ▸ ha.once, fun fd hfd => ?_⟩
  · rw [hs, ha.sockets fd]
    exact exists_congr fun c => and_congr_right fun hm => by rw [hc c hm]
  · rw [hs, hn]
    exact ha.closed fd (hcl ▸ hfd)

omit [Inhabited κ] in
/-- A connection without a socket owns none. -/
theorem Accounted.forget (ha : Accounted m (conn :: l)) (hs : (m.heap.conns conn).sockFd = none) : Accounted m l := by
  refine ⟨ha.fds, fun fd => (ha.sockets fd).trans ⟨fun ⟨c, hc, hfd⟩ => ?_, fun ⟨c, hc, hfd⟩ =>
    ⟨c, List.mem_cons_of_mem conn hc, hfd⟩⟩, ha.once, ha.closed⟩
  cases hc with
  | head => rw [hs] at hfd; cases hfd
  | tail _ hc => exact ⟨c, hc, hfd⟩

/-- An attempt for a connection that owns nothing: what it has now is its own. -/
theorem Accounted.connect (ha : Accounted m l) (hnot : conn ∉ l) (r : Connect) (now : Timeval) :
    Accounted { m with heap := (connConnect m.heap conn r now).2 } (conn :: l) := by
  obtain ⟨hatt, -, -⟩ := connConnect_spec m.heap conn r now
  refine ⟨ha.fds.attempt hatt, fun fd => (connConnect_isOpen m.heap conn r now fd).trans ⟨fun h => ?_, fun h => ?_⟩,
    ha.once, fun fd hfd => ⟨Nat.lt_of_lt_of_le (ha.closed fd hfd).1 hatt.nextSock, ?_⟩⟩
  · rcases h with h | ⟨hr, rfl⟩
    · obtain ⟨c, hc, hs⟩ := (ha.sockets fd).mp h
      exact ⟨c, List.mem_cons_of_mem conn hc, by rw [hatt.conns c (ne_of_mem_of_not_mem hc hnot)]; exact hs⟩
    · exact ⟨conn, List.mem_cons_self, by rw [connConnect_sockFd, if_neg hr]⟩
  · obtain ⟨c, hc, hs⟩ := h
    cases hc with
    | head =>
      rw [connConnect_sockFd] at hs
      split at hs
      · cases hs
      · rename_i hr; exact Or.inr ⟨hr, (Option.some.inj hs).symm⟩
    | tail _ hc =>
      rw [hatt.conns c (ne_of_mem_of_not_mem hc hnot)] at hs
      exact Or.inl ((ha.sockets fd).mpr ⟨c, hc, hs⟩)
  · refine Bool.eq_false_iff.mpr fun ho => ?_
    rcases (connConnect_isOpen m.heap conn r now fd).mp ho with ho | ⟨-, he⟩
    · exact absurd ho (Bool.eq_false_iff.mp (ha.closed fd hfd).2)
    · have := (ha.closed fd hfd).1
      omega

omit [Inhabited κ] in
/-- Closing a connection of `l`: its socket was open, so it was not closed before. -/
theorem Accounted.disconnect (ha : Accounted m l) (hc : conn ∈ l) (hl : l.Nodup) :
    Accounted (connDisconnect m conn) (l.erase conn) := by
  have hopen : ∀ fd, (m.heap.conns conn).sockFd = some fd → (m.heap.socks fd).isOpen = true := fun fd hs =>
    (ha.sockets fd).mpr ⟨conn, hc, hs⟩
  refine ⟨ha.fds.disconnect conn, fun fd => (connDisconnect_isOpen m.heap conn fd).trans ⟨fun ⟨ho, hne⟩ => ?_,
    fun ⟨c, hm, hs⟩ => ?_⟩, ?_, fun fd hfd => ?_⟩
  · obtain ⟨c, hm, hs⟩ := (ha.sockets fd).mp ho
    have hcc : c ≠ conn := fun e => hne (e ▸ hs)
    exact ⟨c, (List.mem_erase_of_ne hcc).mpr hm, (connDisconnect_sockFd m.heap conn c).trans hs⟩
  · have hs : (m.heap.conns c).sockFd = some fd := (connDisconnect_sockFd m.heap conn c).symm.trans hs
    refine ⟨(ha.sockets fd).mpr ⟨c, List.mem_of_mem_erase hm, hs⟩, fun hs' => ?_⟩
    have he : c = conn := ha.fds.exclusive c conn fd hs hs'
    exact hl.not_mem_erase (he ▸ hm)
  · show ((m.heap.conns conn).sockFd.toList ++ m.closed).Nodup
    cases hs : (m.heap.conns conn).sockFd with
    | none => exact ha.once
    | some fd =>
      refine List.nodup_cons.mpr ⟨fun hm => ?_, ha.once⟩
      exact absurd (hopen fd hs) (Bool.eq_false_iff.mp (ha.closed fd hm).2)
  · have hns : (connDisconnect m conn).heap.nextSock = m.heap.nextSock := (connDisconnect_frame m.heap conn).2.1
    rw [hns]
    rcases List.mem_append.mp hfd with hm | hm
    · have hs : (m.heap.conns conn).sockFd = some fd := Option.mem_toList.mp hm
      refine ⟨ha.fds.below conn fd hs, Bool.eq_false_iff.mpr fun ho => ?_⟩
      exact ((connDisconnect_isOpen m.heap conn fd).mp ho).2 hs
    · refine ⟨(ha.closed fd hm).1, Bool.eq_false_iff.mpr fun ho => ?_⟩
      exact absurd ((connDisconnect_isOpen m.heap conn fd).mp ho).1 (Bool.eq_false_iff.mp (ha.closed fd hm).2)

/-- Reconnecting keeps the accounts, whatever becomes of it. -/
theorem Accounted.reconnect (ha : Accounted m l) (hc : conn ∈ l) (hl : l.Nodup) (r : Connect) (now : Timeval) :
    Accounted (connReconnect m conn r now) l :=
  ((ha.disconnect hc hl).connect hl.not_mem_erase r now).congr fun _ => (List.perm_cons_erase hc).mem_iff

/-! ## New connections -/

theorem Accounted.attempt (ha : Accounted m l) (pool : LinkedPool) (hb : ∀ c ∈ l, c < m.heap.nextConn) (r : Connect)
    (now : Timeval) :
    Accounted (newConn pool m r now).2 (m.heap.nextConn :: l) := by
  have hnot : m.heap.nextConn ∉ l := fun h => Nat.lt_irrefl _ (hb _ h)
  let heap := allocConn m.heap (connInit pool.host.str pool.port pool.timeoutSecs)
  have halloc : Accounted { m with heap := heap } l := by
    refine ha.frame (ha.fds.alloc rfl) rfl rfl (fun c hc => ?_) rfl
    exact congrArg ConnObj.sockFd (Function.update_of_ne (ne_of_mem_of_not_mem hc hnot) ..)
  exact halloc.connect hnot r now

/-- A new connection for which no socket was had, or one that was refused. -/
theorem newConn_sockFd (m : Mem κ) (r : Connect) (now : Timeval) :
    ((newConn pool m r now).2.heap.conns m.heap.nextConn).sockFd =
      if r = .noSocket then none else some m.heap.nextSock :=
  connConnect_sockFd (allocConn m.heap _) m.heap.nextConn r now

/-- The object is freed and its socket stays open. -/
theorem Accounted.leak (ha : Accounted m l) (pool : LinkedPool) (hb : ∀ c ∈ l, c < m.heap.nextConn) (now : Timeval) :
    Leaked (newConn pool m .refused now).2 l := by
  have hnot : m.heap.nextConn ∉ l := fun h => Nat.lt_irrefl _ (hb _ h)
  have hnew := ha.attempt pool hb .refused now
  have hs : ((newConn pool m .refused now).2.heap.conns m.heap.nextConn).sockFd = some m.heap.nextSock :=
    newConn_sockFd m .refused now
  refine ⟨m.heap.nextSock, (hnew.sockets _).mpr ⟨_, List.mem_cons_self, hs⟩, hnew.fds.below _ _ hs, fun c hc he => ?_⟩
  exact hnot (hnew.fds.exclusive c _ _ he hs ▸ hc)

/-- What has leaked stays open through further attempts. -/
theorem Leaked.attempt (hl : Leaked m l) (pool : LinkedPool) (hb : ∀ c ∈ l, c < m.heap.nextConn) (r : Connect)
    (now : Timeval) :
    Leaked (newConn pool m r now).2 (m.heap.nextConn :: l) := by
  obtain ⟨fd, ho, hlt, hno⟩ := hl
  let heap := allocConn m.heap (connInit pool.host.str pool.port pool.timeoutSecs)
  obtain ⟨hatt, -, -⟩ := connConnect_spec heap m.heap.nextConn r now
  refine ⟨fd, (connConnect_isOpen heap _ r now fd).mpr (Or.inl ho), Nat.lt_of_lt_of_le hlt hatt.nextSock,
    fun c hc he => ?_⟩
  cases hc with
  | head => have := (hatt.fresh fd he).1; exact absurd hlt (Nat.not_lt.mpr this)
  | tail _ hc =>
    have hne : c ≠ m.heap.nextConn := Nat.ne_of_lt (hb c hc)
    have hsame : (newConn pool m r now).2.heap.conns c = m.heap.conns c :=
      (hatt.conns c hne).trans (Function.update_of_ne hne ..)
    exact hno c hc (hsame ▸ he)

omit [Inhabited κ] in
theorem Leaked.subset (hl : Leaked m l) (hs : l' ⊆ l) : Leaked m l' := by
  obtain ⟨fd, ho, hlt, hno⟩ := hl
  exact ⟨fd, ho, hlt, fun c hc => hno c (hs hc)⟩

omit [Inhabited κ] in
theorem Rep.unique {us' ds' : List Nat} (h : Rep pool m us ds) (h' : Rep pool m us' ds') : us = us' ∧ ds = ds' :=
  ⟨h.unused.unique h'.unused, h.used.unique h'.used⟩

/-- The loop of `pool_init` keeps the accounts if no connect is refused, and leaks if
    one is. -/
theorem poolInitLoop_accounted (now : Timeval) (results : List Connect) (hr : Rep pool m us ds) :
    ∃ pool' m' us', poolInitLoop pool m now results = some (pool', m') ∧ Rep pool' m' us' ds ∧
      (Accounted m (us ++ ds) → .refused ∉ results → Accounted m' (us' ++ ds)) ∧
      (Leaked m (us ++ ds) ∨ Accounted m (us ++ ds) ∧ .refused ∈ results → Leaked m' (us' ++ ds)) := by
  induction results generalizing pool m us with
  | nil =>
    refine ⟨pool, m, us, rfl, hr, fun ha _ => ha, fun h => ?_⟩
    rcases h with h | ⟨-, h⟩
    · exact h
    · cases h
  | cons r results ih =>
    obtain ⟨hr', hnew, hnext⟩ := hr.newConn r now
    have hret : (newConn pool m r now).1 = 0 ↔ r = .accepted := (connConnect_spec (allocConn m.heap _) _ r now).2.2
    cases r with
    | accepted =>
      obtain ⟨head, next, happ, hr''⟩ := hr'.unusedAppend hnew (by rw [hnext]; exact Nat.lt_succ_self _)
      obtain ⟨pool', m', us', he, hrep, hacc, hleak⟩ := ih hr''
      have hmem : ∀ c, c ∈ us ++ [m.heap.nextConn] ++ ds ↔ c ∈ m.heap.nextConn :: (us ++ ds) := fun c => by
        rw [List.append_assoc]; exact List.perm_middle.mem_iff
      refine ⟨pool', m', us', ?_, hrep, fun ha hno => hacc ?_ fun h => hno (List.mem_cons_of_mem _ h), fun h =>
        hleak ?_⟩
      · simp only [poolInitLoop, if_pos (hret.mpr rfl)]
        rw [happ]
        exact he
      · have hgrown := (ha.attempt pool hr.below .accepted now).congr hmem
        exact ⟨hgrown.fds, hgrown.sockets, hgrown.once, hgrown.closed⟩
      · rcases h with h | ⟨ha, h⟩
        · exact Or.inl ((h.attempt pool hr.below .accepted now).subset fun c hc => (hmem c).mp hc)
        · have hgrown := (ha.attempt pool hr.below .accepted now).congr hmem
          have hrest : .refused ∈ results := by simpa using h
          exact Or.inr ⟨⟨hgrown.fds, hgrown.sockets, hgrown.once, hgrown.closed⟩, hrest⟩
    | noSocket =>
      obtain ⟨pool', m', us', he, hrep, hacc, hleak⟩ := ih hr'
      have hkeep : Accounted m (us ++ ds) → Accounted (newConn pool m .noSocket now).2 (us ++ ds) := fun ha =>
        (ha.attempt pool hr.below .noSocket now).forget (newConn_sockFd m .noSocket now)
      refine ⟨pool', m', us', ?_, hrep, fun ha hno => hacc (hkeep ha) fun h => hno (List.mem_cons_of_mem _ h),
        fun h => hleak ?_⟩
      · simp only [poolInitLoop, if_neg (fun h => Connect.noConfusion (hret.mp h))]
        exact he
      · rcases h with h | ⟨ha, h⟩
        · exact Or.inl ((h.attempt pool hr.below .noSocket now).subset (List.subset_cons_self _ _))
        · exact Or.inr ⟨hkeep ha, by simpa using h⟩
    | refused =>
      obtain ⟨pool', m', us', he, hrep, -, hleak⟩ := ih hr'
      refine ⟨pool', m', us', ?_, hrep, fun _ hno => absurd List.mem_cons_self hno, fun h => hleak (Or.inl ?_)⟩
      · simp only [poolInitLoop, if_neg (fun h => Connect.noConfusion (hret.mp h))]
        exact he
      · rcases h with h | ⟨ha, -⟩
        · exact (h.attempt pool hr.below .refused now).subset (List.subset_cons_self _ _)
        · exact ha.leak pool hr.below now

/-! ## Runs -/

/-- The next request makes a new connection. -/
def growing (s : St κ) : Bool :=
  poolGetIdleConnNum s.pool s.mem == some 0 &&
    (poolGetUsedConnNum s.pool s.mem).any fun n => decide ((n : Int) < s.pool.maxConnNum)

/-- No new connection is refused after it got its socket. -/
def noNewRefused (s : St κ) : Label → Bool
  | .init _ _ _ _ _ _ _ _ results => .refused ∉ results
  | .require _ r _ => !(growing s && r == .refused)
  | _ => true

variable {s t : St κ} {a : Label} {us' ds' : List Nat}

omit [Inhabited κ] in
theorem growing_iff (hr : Rep s.pool s.mem us ds) :
    growing s = true ↔ us = [] ∧ (ds.length : Int) < s.pool.maxConnNum := by
  rw [growing, hr.idle, hr.inUse]
  simp

omit [Inhabited κ] in
/-- Closing the idle connections one by one. -/
theorem Accounted.closeAll (us : List Nat) {m : Mem κ} (ha : Accounted m us) (hnd : us.Nodup) :
    Accounted (us.foldl connDisconnect m) [] := by
  induction us generalizing m with
  | nil => exact ha
  | cons conn us ih =>
    have := ha.disconnect List.mem_cons_self hnd
    rw [List.erase_cons_head] at this
    exact ih this (List.nodup_cons.mp hnd).2

theorem accounted_require (hr : Rep s.pool s.mem us ds) (ha : Accounted s.mem (us ++ ds)) (w : Nat) (r : Connect)
    (now : Timeval) :
    ∃ conn pool' m' us' ds', poolRequireConnection s.pool s.mem r now = some (conn, pool', m') ∧ Rep pool' m' us' ds' ∧
      (noNewRefused s (.require w r now) = true → Accounted m' (us' ++ ds') ∧
        (conn = none → ∀ fd, (m'.heap.socks fd).isOpen = (s.mem.heap.socks fd).isOpen)) ∧
      (noNewRefused s (.require w r now) = false → Leaked m' (us' ++ ds')) := by
  obtain ⟨conn, pool', m', us', ds', he, hrep, -, hcl, -, hcase⟩ := poolRequireConnection_listed hr r now
  refine ⟨conn, pool', m', us', ds', he, hrep, ?_⟩
  have hgrow := growing_iff hr
  have hsame : m'.heap = s.mem.heap → (∀ c, c ∈ us' ++ ds' ↔ c ∈ us ++ ds) → Accounted m' (us' ++ ds') := fun hh hm =>
    (ha.congr hm).frame (hh ▸ ha.fds) (by rw [hh]) (by rw [hh]) (fun _ _ => by rw [hh]) hcl
  rcases hcase with ⟨c, rfl, rfl, rfl, hh⟩ | ⟨hfull, rfl, rfl, rfl, hh⟩ | ⟨rfl, rfl, hlt, hh, hnew⟩
  · have hok : noNewRefused s (.require w r now) = true := by
      have hg : growing s = false := Bool.eq_false_iff.mpr fun h => List.cons_ne_nil _ _ (hgrow.mp h).1
      simp [noNewRefused, hg]
    refine ⟨fun _ => ⟨hsame hh fun x => ?_, fun hc => nomatch hc⟩, fun hno => absurd hno (by simp [hok])⟩
    rw [← List.append_assoc]
    exact (List.perm_append_singleton c (us' ++ ds)).mem_iff
  · have hok : noNewRefused s (.require w r now) = true := by
      have hg : growing s = false := Bool.eq_false_iff.mpr fun h => hfull (hgrow.mp h).2
      simp [noNewRefused, hg]
    exact ⟨fun _ => ⟨hsame hh fun _ => Iff.rfl, fun _ fd => by rw [hh]⟩, fun hno => absurd hno (by simp [hok])⟩
  · have hg : growing s = true := hgrow.mpr ⟨rfl, hlt⟩
    have hatt := ha.attempt s.pool hr.below r now
    have hframe : ∀ l, Accounted (newConn s.pool s.mem r now).2 l → Accounted m' l := fun l hl =>
      hl.frame (hh ▸ hl.fds) (by rw [hh]; rfl) (by rw [hh]; rfl) (fun _ _ => by rw [hh]; rfl) hcl
    rcases hnew with ⟨rfl, rfl, rfl⟩ | ⟨hr', rfl, rfl⟩
    · refine ⟨fun _ => ⟨hframe _ (hatt.congr fun x => ?_), fun hc => nomatch hc⟩, fun hno => ?_⟩
      · exact (List.perm_append_singleton s.mem.heap.nextConn ds).mem_iff
      · simp [noNewRefused] at hno
    · cases r with
      | accepted => exact absurd rfl hr'
      | noSocket =>
        refine ⟨fun _ => ⟨hframe _ (hatt.forget (newConn_sockFd s.mem .noSocket now)), fun _ fd => ?_⟩, fun hno => ?_⟩
        · rw [hh]; rfl
        · simp [noNewRefused] at hno
      | refused =>
        refine ⟨fun hok => absurd hok (by simp [noNewRefused, hg]), fun _ => ?_⟩
        obtain ⟨fd, ho, hlt, hno⟩ := ha.leak s.pool hr.below now
        exact ⟨fd, by rw [hh]; exact ho, by rw [hh]; exact hlt, fun c hc => by rw [hh]; exact hno c hc⟩

/-- A step keeps the accounts if and only if it has no refusal of a new connection. -/
theorem accounted_step_iff (hs : Sound s us ds) (ha : Accounted s.mem (us ++ ds)) (h : step s a = some t)
    (ht : Sound t us' ds') : Accounted t.mem (us' ++ ds') ↔ noNewRefused s a = true := by
  cases a with
  | init host port timeout i x y idle now results =>
    simp only [step] at h
    split at h
    · rename_i hg
      obtain ⟨rfl, rfl⟩ := hs.dead hg.1
      have hr : Rep ⟨none, none, false, snprintf hostNameLen host, port, timeout, i, x, y, idle⟩ s.mem [] [] :=
        ⟨.nil, .nil, List.nodup_nil, fun _ hc => absurd hc List.not_mem_nil⟩
      obtain ⟨pool', m', us'', he, hrep, hkeep, hleak⟩ := poolInitLoop_accounted now results hr
      rw [poolInit, he] at h
      cases h
      obtain ⟨rfl, rfl⟩ := ht.rep.unique ⟨hrep.unused, hrep.used, hrep.nodup, hrep.below⟩
      by_cases hm : .refused ∈ results
      · exact iff_of_false (hleak (Or.inr ⟨ha, hm⟩)).not_accounted (by simp [noNewRefused, hm])
      · exact iff_of_true (hkeep ha hm) (by simp [noNewRefused, hm])
    · cases h
  | require w r now =>
    simp only [step] at h
    split at h
    · obtain ⟨conn, pool', m', us'', ds'', he, hrep, hkeep, hleak⟩ := accounted_require hs.rep ha w r now
      rw [he] at h
      cases h
      obtain ⟨rfl, rfl⟩ := ht.rep.unique hrep
      cases hok : noNewRefused s (.require w r now) with
      | true => exact iff_of_true (hkeep hok).1 rfl
      | false => exact iff_of_false (hleak hok).not_accounted Bool.false_ne_true
    · cases h
  | reconnect w conn r now =>
    simp only [step] at h
    split at h
    · rename_i hg
      cases h
      have hd : conn ∈ ds := hs.held.mem_iff.mpr (List.mem_map_of_mem hg.2)
      obtain ⟨rfl, rfl⟩ := ht.rep.unique (hs.reconnect conn r now).rep
      exact iff_of_true (ha.reconnect (List.mem_append_right _ hd) hs.rep.nodup r now) rfl
    · cases h
  | release w conn n now =>
    simp only [step] at h
    split at h
    · rename_i hg
      have hd : conn ∈ ds := hs.held.mem_iff.mpr (List.mem_map_of_mem hg.2)
      obtain ⟨pool', m', he, hrep, hlist, hcl, -⟩ := poolReleaseConnection_listed hs.rep hd n now
      rw [he] at h
      cases h
      obtain ⟨rfl, rfl⟩ := ht.rep.unique hrep
      refine iff_of_true ?_ rfl
      have hh : m'.heap = (Pool.poolReleaseConnection (s.pool.listed us ds) s.mem.heap conn n now).2 := by rw [hlist]
      have hfd : ∀ c, (m'.heap.conns c).sockFd = (s.mem.heap.conns c).sockFd := fun c => by
        rw [hh]
        by_cases hc : c = conn
        · subst hc; cases n <;> simp [Pool.poolReleaseConnection, setConn]
        · simp [Pool.poolReleaseConnection, setConn, hc]
      have hfds : Fds m'.heap := by
        rw [hh]
        cases n with
        | false => exact ha.fds.setConn rfl rfl
        | true => exact ha.fds.setConn rfl rfl
      have hperm : (us ++ [conn] ++ ds.erase conn).Perm (us ++ ds) := by
        rw [List.append_assoc]
        exact (List.perm_cons_erase hd).symm.append_left us
      exact (ha.congr fun c => hperm.mem_iff).frame hfds (by rw [hh]; rfl) (by rw [hh]; rfl) (fun c _ => hfd c) hcl
    · cases h
  | check now =>
    simp only [step] at h
    split at h
    · obtain ⟨pool', m', us'', he, hrep, -, -, hcase⟩ := poolCheck_listed hs.rep now
      rw [he] at h
      cases h
      obtain ⟨rfl, rfl⟩ := ht.rep.unique hrep
      refine iff_of_true ?_ rfl
      rcases hcase with ⟨rfl, rfl⟩ | ⟨c, hc, rfl, -, rfl, hh, hcl⟩
      · exact ha
      · rw [List.append_nil] at ha ⊢
        have hclosed := ha.disconnect hc (by simpa using hs.rep.nodup)
        exact hclosed.frame (hh ▸ hclosed.fds) (by rw [hh]) (by rw [hh]) (fun _ _ => by rw [hh]) hcl
    · cases h
  | destroy =>
    simp only [step] at h
    split at h
    · obtain ⟨ret, pool', m', us'', he, hrep, -, -, hcase⟩ := poolDestroy_listed hs.rep
      rw [he] at h
      cases h
      obtain ⟨rfl, rfl⟩ := ht.rep.unique hrep
      refine iff_of_true ?_ rfl
      rcases hcase with ⟨-, -, rfl, rfl⟩ | ⟨rfl, -, rfl, rfl⟩
      · exact ha
      · rw [List.append_nil] at ha
        exact ha.closeAll us (by simpa using hs.rep.nodup)
    · cases h

theorem accounted_of_reach (h : Reach step (fun s a => noNewRefused s a = true) (boot freshHeap) s) :
    ∃ us ds, Sound s us ds ∧ Accounted s.mem (us ++ ds) := by
  refine h.inv (I := fun s => ∃ us ds, Sound s us ds ∧ Accounted s.mem (us ++ ds)) ?_ fun s a t hs hok hst => ?_
  · have hstart : Reach step (fun _ _ => True) (boot freshHeap) (boot (freshHeap : Heap κ)) := .start
    obtain ⟨us, ds, hs⟩ := sound_of_reach hstart
    refine ⟨us, ds, hs, ?_⟩
    obtain ⟨rfl, rfl⟩ := hs.dead rfl
    have hnone : ∀ c, ((freshHeap : Heap κ).conns c).sockFd = none := fun _ => rfl
    refine ⟨⟨fun c fd hc => ?_, fun c c' fd hc => ?_, fun c fd hc => ?_⟩, fun fd => iff_of_false Bool.false_ne_true ?_,
      List.nodup_nil, fun fd hfd => absurd hfd List.not_mem_nil⟩
    · exact absurd hc (by rw [show (boot freshHeap : St κ).mem.heap = freshHeap from rfl, hnone]; simp)
    · exact absurd hc (by rw [show (boot freshHeap : St κ).mem.heap = freshHeap from rfl, hnone]; simp)
    · exact absurd hc (by rw [show (boot freshHeap : St κ).mem.heap = freshHeap from rfl, hnone]; simp)
    · intro ⟨c, hc, _⟩
      exact absurd hc List.not_mem_nil
  · obtain ⟨us, ds, hsound, hacc⟩ := hs
    obtain ⟨us', ds', hsound'⟩ := hsound.step hst
    exact ⟨us', ds', hsound', (accounted_step_iff hsound hacc hst hsound').mpr hok⟩

/-- In runs in which no new connection is refused. -/
theorem descriptors_accounted (h : Reach step (fun s a => noNewRefused s a = true) (boot freshHeap) s) :
    ∃ us ds, Chain s.mem.next s.pool.unusedConnList us ∧ Chain s.mem.next s.pool.usedConnList ds ∧
      (∀ fd, (s.mem.heap.socks fd).isOpen = true ↔ ∃ c ∈ us ++ ds, (s.mem.heap.conns c).sockFd = some fd) ∧
      (∀ c ∈ us ++ ds, ∀ c' ∈ us ++ ds, ∀ fd, (s.mem.heap.conns c).sockFd = some fd →
        (s.mem.heap.conns c').sockFd = some fd → c = c') ∧
      s.mem.closed.Nodup ∧
      ∀ w r now pool m, noNewRefused s (.require w r now) = true →
        poolRequireConnection s.pool s.mem r now = some (none, pool, m) →
        ∀ fd, (m.heap.socks fd).isOpen = (s.mem.heap.socks fd).isOpen := by
  obtain ⟨us, ds, hs, ha⟩ := accounted_of_reach h
  refine ⟨us, ds, hs.rep.unused, hs.rep.used, ha.sockets, fun c _ c' _ fd => ha.fds.exclusive c c' fd, ha.once,
    fun w r now pool m hok hnone => ?_⟩
  obtain ⟨conn, pool', m', us', ds', he, -, hkeep, -⟩ := accounted_require hs.rep ha w r now
  rw [hnone, Option.some.injEq, Prod.mk.injEq, Prod.mk.injEq] at he
  obtain ⟨rfl, rfl, rfl⟩ := he
  exact (hkeep hok).2 rfl

/-- Two connections, of which one is reconnected three times, the first two in vain. -/
def reconnectRun : List Label :=
  let now : Timeval := ⟨1, 0⟩
  [.init (CStr.lit "127.0.0.1") 1234 3 2 1 2 60 now [.accepted, .accepted], .require 1 .accepted now,
    .reconnect 1 0 .refused now, .reconnect 1 0 .noSocket now, .reconnect 1 0 .accepted now, .release 1 0 true now,
    .destroy]

theorem descriptors_accounted_sample : ∃ s : St Unit, s.mem.closed = [3, 1, 2, 0] ∧ s.mem.closed.Nodup ∧
    ∀ fd, (s.mem.heap.socks fd).isOpen = false := by
  have hrun : (exec step (fun s a => noNewRefused s a = true) (boot freshHeap) reconnectRun).any
      (fun s : St Unit => decide (s.mem.closed = [3, 1, 2, 0] ∧ s.pool.unusedConnList = none ∧
        s.pool.usedConnList = none)) = true := by decide +kernel
  obtain ⟨s, hreach, hs⟩ := Machine.reach_of_exec_any hrun
  obtain ⟨hclosed, hu, hd⟩ := of_decide_eq_true hs
  obtain ⟨us, ds, hus, hds, hsock, -, honce, -⟩ := descriptors_accounted hreach
  rw [hu] at hus
  rw [hd] at hds
  cases hus
  cases hds
  refine ⟨s, hclosed, honce, fun fd => Bool.eq_false_iff.mpr fun ho => ?_⟩
  obtain ⟨c, hc, -⟩ := (hsock fd).mp ho
  cases hc

/-- A provider that refuses: the request returns NULL, and socket 0 is open with no
    connection left to close it. -/
theorem refused_connect_leaks : ∃ s t : St Unit, Reach step (fun _ _ => True) (boot freshHeap) s ∧
    step s (.require 1 .refused ⟨1, 0⟩) = some t ∧ t.holders = [] ∧ t.pool.unusedConnList = none ∧
    t.pool.usedConnList = none ∧ (s.mem.heap.socks 0).isOpen = false ∧ (t.mem.heap.socks 0).isOpen = true := by
  have hrun : (exec step (fun _ _ => True) (boot freshHeap)
      [.init (CStr.lit "127.0.0.1") 1234 3 0 0 1 60 ⟨1, 0⟩ []]).any (fun s : St Unit =>
        (step s (.require 1 .refused ⟨1, 0⟩)).any fun t => decide (t.holders = [] ∧ t.pool.unusedConnList = none ∧
          t.pool.usedConnList = none ∧ (s.mem.heap.socks 0).isOpen = false ∧ (t.mem.heap.socks 0).isOpen = true)) =
      true := by decide +kernel
  obtain ⟨s, hreach, hs⟩ := Machine.reach_of_exec_any hrun
  obtain ⟨t, ht, hp⟩ := (Option.any_eq_true _ _).mp hs
  exact ⟨s, t, hreach, ht, of_decide_eq_true hp⟩

end Ddm.Pool.Linked
