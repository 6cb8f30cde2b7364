/-
  Ddm.Pool.Ownership — connections belong to one list of one pool, sockets to one
  connection, and a connection in use to the worker that took it.

  `Lists` is the invariant of the pools' lists and of who holds what, `Fds` that of the
  descriptors. Proved: every operation of `Ddm.Pool.ConnPool` keeps both. A worker's
  operations go through the connection it holds, so they touch no other connection's
  socket: `reconnect_other`.
-/

import Ddm.Pool.ConnPool

namespace Ddm.Pool

variable {κ : Type} [Inhabited κ]

def PoolObj.members (pool : PoolObj) : List Nat := pool.unusedConnList ++ pool.usedConnList

/-- `holds w` is the pool and the connection worker `w` has taken from it. -/
structure Lists (pools : Nat → PoolObj) (nextConn : Nat) (holds : Nat → Option (Nat × Nat)) : Prop where
  below : ∀ p, ∀ c ∈ (pools p).members, c < nextConn
  nodup : ∀ p, (pools p).members.Nodup
  disjoint : ∀ p q c, c ∈ (pools p).members → c ∈ (pools q).members → p = q
  held : ∀ w p c, holds w = some (p, c) → c ∈ (pools p).usedConnList
  exclusive : ∀ w w' p p' c, holds w = some (p, c) → holds w' = some (p', c) → w = w'

structure Fds (h : Heap κ) : Prop where
  below : ∀ c fd, (h.conns c).sockFd = some fd → fd < h.nextSock
  exclusive : ∀ c c' fd, (h.conns c).sockFd = some fd → (h.conns c').sockFd = some fd → c = c'
  peer : ∀ c fd, (h.conns c).sockFd = some fd → (h.socks fd).peer = (h.conns c).address

variable {pools : Nat → PoolObj} {n : Nat} {holds : Nat → Option (Nat × Nat)} {h h' : Heap κ} {p w conn : Nat}

/-! ## Descriptors -/

omit [Inhabited κ] in
theorem Fds.attempt (hf : Fds h) (a : Attempt h h' conn) : Fds h' := by
  have hother : ∀ c fd, c ≠ conn → (h'.conns c).sockFd = some fd → fd < h.nextSock := fun c fd hne hs => by
    rw [a.conns c hne] at hs; exact hf.below c fd hs
  refine ⟨?_, ?_, ?_⟩
  · intro c fd hs
    by_cases hc : c = conn
    · subst hc; exact (a.fresh fd hs).2
    · exact Nat.lt_of_lt_of_le (hother c fd hc hs) a.nextSock
  · intro c c' fd hs hs'
    -- a new descriptor is none of the old ones
    by_cases hc : c = conn
    · by_cases hc' : c' = conn
      · rw [hc, hc']
      · subst hc
        have := (a.fresh fd hs).1
        have := hother c' fd hc' hs'
        omega
    · by_cases hc' : c' = conn
      · subst hc'
        have := (a.fresh fd hs').1
        have := hother c fd hc hs
        omega
      · rw [a.conns c hc] at hs
        rw [a.conns c' hc'] at hs'
        exact hf.exclusive c c' fd hs hs'
  · intro c fd hs
    by_cases hc : c = conn
    · subst hc; exact a.peer fd hs
    · rw [a.peers fd (hother c fd hc hs)]
      rw [a.conns c hc] at hs ⊢
      exact hf.peer c fd hs

omit [Inhabited κ] in
/-- An object changed in anything but its socket and its address. -/
theorem Fds.setConn (hf : Fds h) {c : ConnObj} (hs : c.sockFd = (h.conns conn).sockFd)
    (ha : c.address = (h.conns conn).address) : Fds (setConn h conn c) := by
  have hsame : ∀ c', ((Pool.setConn h conn c).conns c').sockFd = (h.conns c').sockFd ∧
      ((Pool.setConn h conn c).conns c').address = (h.conns c').address := fun c' => by
    by_cases hc : c' = conn
    · subst hc; simp only [Pool.setConn, Function.update_self]; exact ⟨hs, ha⟩
    · simp only [Pool.setConn, Function.update_of_ne hc, and_self]
  refine ⟨fun c' fd h1 => ?_, fun c' c'' fd h1 h2 => ?_, fun c' fd h1 => ?_⟩
  · rw [(hsame c').1] at h1; exact hf.below c' fd h1
  · rw [(hsame c').1] at h1
    rw [(hsame c'').1] at h2
    exact hf.exclusive c' c'' fd h1 h2
  · rw [(hsame c').1] at h1
    rw [(hsame c').2]
    exact hf.peer c' fd h1

omit [Inhabited κ] in
theorem Fds.alloc (hf : Fds h) {c : ConnObj} (hs : c.sockFd = none) : Fds (allocConn h c) := by
  have hold : ∀ c' fd, ((allocConn h c).conns c').sockFd = some fd → (allocConn h c).conns c' = h.conns c' := by
    intro c' fd h1
    by_cases hc : c' = h.nextConn
    · subst hc; simp [allocConn, Pool.setConn, hs] at h1
    · exact Function.update_of_ne hc ..
  refine ⟨fun c' fd h1 => ?_, fun c' c'' fd h1 h2 => ?_, fun c' fd h1 => ?_⟩
  · rw [hold c' fd h1] at h1; exact hf.below c' fd h1
  · rw [hold c' fd h1] at h1
    rw [hold c'' fd h2] at h2
    exact hf.exclusive c' c'' fd h1 h2
  · have e := hold c' fd h1
    rw [e] at h1 ⊢
    exact hf.peer c' fd h1

omit [Inhabited κ] in
theorem connDisconnect_conns (h : Heap κ) (conn : Nat) : (connDisconnect h conn).2.conns =
    (Pool.setConn h conn { h.conns conn with connected := false, errorOccured := false }).conns := by
  unfold connDisconnect
  simp only
  split
  · rfl
  · split <;> rfl

omit [Inhabited κ] in
theorem Fds.disconnect (hf : Fds h) (conn : Nat) : Fds (connDisconnect h conn).2 := by
  obtain ⟨-, hs, -, -, hpeers, -⟩ := connDisconnect_frame h conn
  have hset : Fds (Pool.setConn h conn { h.conns conn with connected := false, errorOccured := false }) :=
    hf.setConn rfl rfl
  refine ⟨fun c fd h1 => ?_, fun c c' fd h1 h2 => ?_, fun c fd h1 => ?_⟩
  · rw [connDisconnect_conns] at h1; rw [hs]; exact hset.below c fd h1
  · rw [connDisconnect_conns] at h1 h2; exact hset.exclusive c c' fd h1 h2
  · rw [connDisconnect_conns] at h1 ⊢; rw [hpeers]; exact hset.peer c fd h1

omit [Inhabited κ] in
/-- A pool with a connection in use is left alone; else its idle connections go. -/
theorem poolDestroy_cases (hf : Fds h) (pool : PoolObj) :
    (pool.usedConnList ≠ [] ∧ poolDestroy pool h = (-1, pool, h)) ∨
    ∃ h', pool.usedConnList = [] ∧ poolDestroy pool h = (0, { pool with unusedConnList := [] }, h') ∧
      h'.nextConn = h.nextConn ∧ Fds h' := by
  by_cases hu : pool.usedConnList = []
  · refine Or.inr ⟨_, hu, by rw [poolDestroy, if_neg (by simp [hu])], ?_⟩
    generalize pool.unusedConnList = l
    induction l generalizing h with
    | nil => exact ⟨rfl, hf⟩
    | cons conn l ih =>
      obtain ⟨hn, hf'⟩ := ih (hf.disconnect conn)
      exact ⟨hn.trans (connDisconnect_frame h conn).1, hf'⟩
  · exact Or.inl ⟨hu, by rw [poolDestroy, if_pos (List.length_pos_iff.mpr hu)]⟩

/-! ## A new connection -/

/-- The heap after `malloc`, `conn_init` and `conn_connect`. -/
def connectNew (h : Heap κ) (pool : PoolObj) (r : Connect) (now : Timeval) : Heap κ :=
  (connConnect (allocConn h (connInit pool.host.str pool.port pool.timeoutSecs)) h.nextConn r now).2

theorem connectNew_nextConn (h : Heap κ) (pool : PoolObj) (r : Connect) (now : Timeval) :
    (connectNew h pool r now).nextConn = h.nextConn + 1 :=
  (connConnect_spec (allocConn h _) h.nextConn r now).1.nextConn

theorem Fds.connectNew (hf : Fds h) (pool : PoolObj) (r : Connect) (now : Timeval) :
    Fds (connectNew h pool r now) :=
  (hf.alloc rfl).attempt (connConnect_spec (allocConn h _) h.nextConn r now).1

theorem Streams.connectNew {P : Address → κ → Prop} (hs : Streams P h) (h0 : ∀ a, P a default) (pool : PoolObj)
    (r : Connect) (now : Timeval) : Streams P (connectNew h pool r now) :=
  Streams.connConnect (h := allocConn h _) hs h0 h.nextConn r now

/-- The objects there were, and their sockets, stay as they are. -/
theorem connectNew_other (hf : Fds h) (pool : PoolObj) (r : Connect) (now : Timeval) {c : Nat} (hc : c < h.nextConn) :
    (connectNew h pool r now).conns c = h.conns c ∧ (connectNew h pool r now).sock c = h.sock c := by
  obtain ⟨a, hold, -⟩ :=
    connConnect_spec (allocConn h (connInit pool.host.str pool.port pool.timeoutSecs)) h.nextConn r now
  have hconn : (connectNew h pool r now).conns c = h.conns c :=
    (a.conns c (Nat.ne_of_lt hc)).trans (Function.update_of_ne (Nat.ne_of_lt hc) ..)
  refine ⟨hconn, ?_⟩
  simp only [Heap.sock, hconn]
  cases hs : (h.conns c).sockFd with
  | none => rfl
  | some fd => exact congrArg some (hold fd (hf.below c fd hs))

theorem reconnect_other (hf : Fds h) (r : Connect) (now : Timeval) {c : Nat} (hc : c ≠ conn) :
    (connReconnect h conn r now).2.conns c = h.conns c ∧ (connReconnect h conn r now).2.sock c = h.sock c := by
  obtain ⟨a, hold, -⟩ := connReconnect_spec h conn r now
  have hconn := a.conns c hc
  refine ⟨hconn, ?_⟩
  simp only [Heap.sock, hconn]
  cases hs : (h.conns c).sockFd with
  | none => rfl
  | some fd =>
    exact congrArg some (hold fd (hf.below c fd hs) fun e => hc (hf.exclusive c conn fd hs e))

theorem connectNew_clean (h : Heap κ) (pool : PoolObj) (now : Timeval) :
    Clean (connectNew h pool .accepted now) h.nextConn :=
  connConnect_accepted (allocConn h _) h.nextConn now

/-- Cleanness is about the object's flag and its own socket. -/
theorem clean_congr {c : Nat} (hc : h'.conns c = h.conns c) (hs : h'.sock c = h.sock c) :
    Clean h' c ↔ Clean h c := by
  unfold Clean
  rw [hc, hs]

theorem connectNew_address (h : Heap κ) (pool : PoolObj) (r : Connect) (now : Timeval) :
    ((connectNew h pool r now).conns h.nextConn).address = pool.address := by
  have a := (connConnect_spec (allocConn h (connInit pool.host.str pool.port pool.timeoutSecs)) h.nextConn r now).1
  refine a.address.trans ?_
  simp only [allocConn, Pool.setConn, Function.update_self, connInit, ConnObj.address, PoolObj.address, Lib.snprintf_fit]

/-- What the loop of `pool_init` adds, `l`, was allocated in it and is connected to the
    pool's address; what there was before stays as it is. -/
theorem poolInitLoop_spec (now : Timeval) (results : List Connect) (pool : PoolObj) (h : Heap κ) (hf : Fds h) :
    ∃ l, (poolInitLoop pool h now results).1 = { pool with unusedConnList := pool.unusedConnList ++ l } ∧
      h.nextConn ≤ (poolInitLoop pool h now results).2.nextConn ∧ Fds (poolInitLoop pool h now results).2 ∧ l.Nodup ∧
      (∀ c ∈ l, h.nextConn ≤ c ∧ c < (poolInitLoop pool h now results).2.nextConn ∧
        Clean (poolInitLoop pool h now results).2 c ∧
        ((poolInitLoop pool h now results).2.conns c).address = pool.address) ∧
      ∀ c < h.nextConn, (poolInitLoop pool h now results).2.conns c = h.conns c ∧
        (poolInitLoop pool h now results).2.sock c = h.sock c := by
  induction results generalizing pool h with
  | nil =>
    exact ⟨[], by simp [poolInitLoop], Nat.le_refl _, hf, List.nodup_nil, fun _ hc => absurd hc List.not_mem_nil,
      fun _ _ => ⟨rfl, rfl⟩⟩
  | cons r results ih =>
    have hnext := connectNew_nextConn h pool r now
    by_cases hr : r = .accepted
    · have he : poolInitLoop pool h now (r :: results) = poolInitLoop { pool with
          unusedConnList := pool.unusedConnList ++ [h.nextConn] } (connectNew h pool r now) now results := by
        subst hr; rfl
      obtain ⟨l, hp, hle, hf', hnd, hl, hold⟩ := ih { pool with unusedConnList := pool.unusedConnList ++ [h.nextConn] }
        (connectNew h pool r now) (hf.connectNew pool r now)
      rw [← he] at hp hle hf' hl hold
      refine ⟨h.nextConn :: l, by rw [hp, List.append_assoc]; rfl, by omega, hf', ?_, fun c hc => ?_, fun c hc => ?_⟩
      · exact List.nodup_cons.mpr ⟨fun hm => by have := (hl _ hm).1; omega, hnd⟩
      · cases hc with
        | head =>
          obtain ⟨hc, hs⟩ := hold h.nextConn (by omega)
          exact ⟨Nat.le_refl _, by omega, (clean_congr hc hs).mpr (hr ▸ connectNew_clean h pool now),
            hc ▸ connectNew_address h pool r now⟩
        | tail _ hc => exact ⟨by have := (hl c hc).1; omega, (hl c hc).2⟩
      · obtain ⟨h1, h2⟩ := hold c (by omega)
        obtain ⟨h3, h4⟩ := connectNew_other hf pool r now hc
        exact ⟨h1.trans h3, h2.trans h4⟩
    · have he : poolInitLoop pool h now (r :: results) = poolInitLoop pool (connectNew h pool r now) now results := by
        cases r with
        | noSocket => rfl
        | refused => rfl
        | accepted => exact absurd rfl hr
      obtain ⟨l, hp, hle, hf', hnd, hl, hold⟩ := ih pool (connectNew h pool r now) (hf.connectNew pool r now)
      rw [← he] at hp hle hf' hl hold
      refine ⟨l, hp, by omega, hf', hnd, fun c hc => ⟨by have := (hl c hc).1; omega, (hl c hc).2⟩, fun c hc => ?_⟩
      obtain ⟨h1, h2⟩ := hold c (by omega)
      obtain ⟨h3, h4⟩ := connectNew_other hf pool r now hc
      exact ⟨h1.trans h3, h2.trans h4⟩

/-! ## Lists -/

/-- A pool that has `l` more, each allocated since. -/
theorem Lists.grow (hl : Lists pools n holds) {m : Nat} {l : List Nat} {pool' : PoolObj}
    {holds' : Nat → Option (Nat × Nat)} (hperm : pool'.members.Perm (l ++ (pools p).members)) (hm : n ≤ m)
    (hnd : l.Nodup) (hnew : ∀ c ∈ l, n ≤ c ∧ c < m)
    (hheld : ∀ w q c, holds' w = some (q, c) → c ∈ (Function.update pools p pool' q).usedConnList)
    (hex : ∀ w w' q q' c, holds' w = some (q, c) → holds' w' = some (q', c) → w = w') :
    Lists (Function.update pools p pool') m holds' := by
  have hfresh : ∀ q, ∀ c ∈ l, c ∉ (pools q).members := fun q c hc hm => by
    have := hl.below q c hm
    have := (hnew c hc).1
    omega
  have hmem : ∀ q c, c ∈ (Function.update pools p pool' q).members ↔ c ∈ (pools q).members ∨ q = p ∧ c ∈ l := by
    intro q c
    by_cases hq : q = p
    · subst hq
      rw [Function.update_self, hperm.mem_iff, List.mem_append]
      simp only [true_and, or_comm]
    · rw [Function.update_of_ne hq]; simp [hq]
  refine ⟨fun q c hc => ?_, fun q => ?_, fun q q' c h1 h2 => ?_, hheld, hex⟩
  · cases (hmem q c).mp hc with
    | inl h => exact Nat.lt_of_lt_of_le (hl.below q c h) hm
    | inr h => exact (hnew c h.2).2
  · by_cases hq : q = p
    · subst hq
      rw [Function.update_self, hperm.nodup_iff]
      refine List.nodup_append.mpr ⟨hnd, hl.nodup q, fun c hc c' hc' e => hfresh q c hc (e ▸ hc')⟩
    · rw [Function.update_of_ne hq]; exact hl.nodup q
  · rcases (hmem q c).mp h1 with o1 | ⟨e1, n1⟩
    · rcases (hmem q' c).mp h2 with o2 | ⟨-, n2⟩
      · exact hl.disjoint q q' c o1 o2
      · exact absurd o1 (hfresh q c n2)
    · rcases (hmem q' c).mp h2 with o2 | ⟨e2, -⟩
      · exact absurd o2 (hfresh q' c n1)
      · exact e1.trans e2.symm

/-- A pool's connections rearranged. -/
theorem Lists.permute (hl : Lists pools n holds) {pool' : PoolObj} {holds' : Nat → Option (Nat × Nat)}
    (hperm : pool'.members.Perm (pools p).members)
    (hheld : ∀ w q c, holds' w = some (q, c) → c ∈ (Function.update pools p pool' q).usedConnList)
    (hex : ∀ w w' q q' c, holds' w = some (q, c) → holds' w' = some (q', c) → w = w') :
    Lists (Function.update pools p pool') n holds' :=
  hl.grow (l := []) hperm (Nat.le_refl n) List.nodup_nil (fun _ hc => absurd hc List.not_mem_nil) hheld hex

/-- A new pool, of connections nobody has taken yet. -/
theorem Lists.add_pool (hl : Lists pools n holds) {m : Nat} {pool' : PoolObj} (h0 : (pools p).members = [])
    (hused : pool'.usedConnList = []) (hm : n ≤ m) (hnd : pool'.unusedConnList.Nodup)
    (hnew : ∀ c ∈ pool'.unusedConnList, n ≤ c ∧ c < m) : Lists (Function.update pools p pool') m holds := by
  refine hl.grow (l := pool'.unusedConnList) ?_ hm hnd hnew (fun w q c hw => ?_) hl.exclusive
  · rw [PoolObj.members, hused, h0]
  · have hc := hl.held w q c hw
    have hq : q ≠ p := fun e => by
      have hmem : c ∈ (pools p).members := e ▸ List.mem_append_right _ hc
      rw [h0] at hmem
      cases hmem
    rw [Function.update_of_ne hq]
    exact hc

/-- A pool emptied, of which nobody holds a connection. -/
theorem Lists.clear (hl : Lists pools n holds) {pool' : PoolObj} (hused : (pools p).usedConnList = [])
    (hempty : pool'.members = []) : Lists (Function.update pools p pool') n holds := by
  have hsub : ∀ q c, c ∈ (Function.update pools p pool' q).members → c ∈ (pools q).members := fun q c hc => by
    by_cases e : q = p
    · subst e; rw [Function.update_self, hempty] at hc; cases hc
    · rwa [Function.update_of_ne e] at hc
  refine ⟨fun q c hc => hl.below q c (hsub q c hc), fun q => ?_,
    fun q q' c h1 h2 => hl.disjoint q q' c (hsub q c h1) (hsub q' c h2), fun w q c hw => ?_, hl.exclusive⟩
  · by_cases e : q = p
    · subst e; rw [Function.update_self, hempty]; exact List.nodup_nil
    · rw [Function.update_of_ne e]; exact hl.nodup q
  · have hc := hl.held w q c hw
    have e : q ≠ p := fun e => by rw [e, hused] at hc; cases hc
    rw [Function.update_of_ne e]
    exact hc

theorem Lists.mono (hl : Lists pools n holds) {m : Nat} (hm : n ≤ m) : Lists pools m holds :=
  ⟨fun p c hc => Nat.lt_of_lt_of_le (hl.below p c hc) hm, hl.nodup, hl.disjoint, hl.held, hl.exclusive⟩

/-- Worker `w` takes `conn`, which nobody holds. -/
theorem holds_taken {c : Nat} (hex : ∀ w w' q q' c, holds w = some (q, c) → holds w' = some (q', c) → w = w')
    (hfree : ∀ w q, holds w ≠ some (q, c)) : ∀ w₁ w₂ q q' d, Function.update holds w (some (p, c)) w₁ = some (q, d) →
      Function.update holds w (some (p, c)) w₂ = some (q', d) → w₁ = w₂ := by
  intro w₁ w₂ q q' d h₁ h₂
  by_cases e₁ : w₁ = w <;> by_cases e₂ : w₂ = w
  · rw [e₁, e₂]
  · subst e₁
    rw [Function.update_self, Option.some.injEq, Prod.mk.injEq] at h₁
    rw [Function.update_of_ne e₂, ← h₁.2] at h₂
    exact absurd h₂ (hfree w₂ q')
  · subst e₂
    rw [Function.update_self, Option.some.injEq, Prod.mk.injEq] at h₂
    rw [Function.update_of_ne e₁, ← h₂.2] at h₁
    exact absurd h₁ (hfree w₁ q)
  · rw [Function.update_of_ne e₁] at h₁
    rw [Function.update_of_ne e₂] at h₂
    exact hex w₁ w₂ q q' d h₁ h₂

/-- The connection worker `w` takes goes to the end of its pool's used list. -/
theorem Lists.held_taken (hl : Lists pools n holds) {pool' : PoolObj} {c : Nat}
    (hused : pool'.usedConnList = (pools p).usedConnList ++ [c]) (w' q d : Nat)
    (hh : Function.update holds w (some (p, c)) w' = some (q, d)) :
    d ∈ (Function.update pools p pool' q).usedConnList := by
  by_cases e : w' = w
  · subst e
    rw [Function.update_self, Option.some.injEq, Prod.mk.injEq] at hh
    obtain ⟨rfl, rfl⟩ := hh
    rw [Function.update_self, hused]
    simp
  · rw [Function.update_of_ne e] at hh
    have := hl.held w' q d hh
    by_cases hq : q = p
    · subst hq
      rw [Function.update_self, hused]
      exact List.mem_append_left _ this
    · rw [Function.update_of_ne hq]
      exact this

/-- An idle connection moves to the used list and to the worker. -/
theorem Lists.take_idle (hl : Lists pools n holds) {rest : List Nat} (hu : (pools p).unusedConnList = conn :: rest) :
    Lists (Function.update pools p { pools p with unusedConnList := rest, usedConnList := (pools p).usedConnList ++ [conn] })
      n (Function.update holds w (some (p, conn))) := by
  have hm : conn ∈ (pools p).members := by simp [PoolObj.members, hu]
  have hnot : conn ∉ (pools p).usedConnList := fun hc => by
    have := hl.nodup p
    rw [PoolObj.members, hu] at this
    exact (List.nodup_append.mp this).2.2 conn List.mem_cons_self conn hc rfl
  have hfree : ∀ w' q, holds w' ≠ some (q, conn) := fun w' q hh => by
    have hused := hl.held w' q conn hh
    have : q = p := hl.disjoint q p conn (List.mem_append_right _ hused) hm
    exact hnot (this ▸ hused)
  refine hl.permute ?_ (hl.held_taken rfl) (holds_taken hl.exclusive hfree)
  have := (List.perm_append_singleton conn (rest ++ (pools p).usedConnList))
  rw [List.append_assoc] at this
  rw [PoolObj.members, PoolObj.members, hu]
  exact this

/-- A new connection goes to the used list and to the worker. -/
theorem Lists.take_new (hl : Lists pools n holds) :
    Lists (Function.update pools p { pools p with usedConnList := (pools p).usedConnList ++ [n] }) (n + 1)
      (Function.update holds w (some (p, n))) := by
  have hfree : ∀ w' q, holds w' ≠ some (q, n) := fun w' q hh =>
    Nat.lt_irrefl n (hl.below q n (List.mem_append_right _ (hl.held w' q n hh)))
  refine hl.grow (l := [n]) ?_ (Nat.le_succ n) (List.nodup_singleton n) (by simp) (hl.held_taken rfl)
    (holds_taken hl.exclusive hfree)
  have := (List.perm_append_singleton n ((pools p).unusedConnList ++ (pools p).usedConnList))
  rw [List.append_assoc] at this
  exact this

/-- The worker gives its connection back to the idle list. -/
theorem Lists.give_back (hl : Lists pools n holds) (hw : holds w = some (p, conn)) :
    Lists (Function.update pools p { pools p with
        usedConnList := (pools p).usedConnList.erase conn, unusedConnList := (pools p).unusedConnList ++ [conn] })
      n (Function.update holds w none) := by
  have hused := hl.held w p conn hw
  refine hl.permute ?_ (fun w' q c hh => ?_) fun w₁ w₂ q q' c h₁ h₂ => ?_
  · rw [PoolObj.members, PoolObj.members, List.append_assoc]
    exact (List.perm_cons_erase hused).symm.append_left _
  · have e : w' ≠ w := fun e => by rw [e, Function.update_self] at hh; cases hh
    rw [Function.update_of_ne e] at hh
    have hc := hl.held w' q c hh
    by_cases hq : q = p
    · subst hq
      have hne : c ≠ conn := fun he => e (hl.exclusive w' w q q c hh (he ▸ hw))
      rw [Function.update_self]
      exact (List.mem_erase_of_ne hne).mpr hc
    · rw [Function.update_of_ne hq]; exact hc
  · have e₁ : w₁ ≠ w := fun e => by rw [e, Function.update_self] at h₁; cases h₁
    have e₂ : w₂ ≠ w := fun e => by rw [e, Function.update_self] at h₂; cases h₂
    rw [Function.update_of_ne e₁] at h₁
    rw [Function.update_of_ne e₂] at h₂
    exact hl.exclusive w₁ w₂ q q' c h₁ h₂

end Ddm.Pool
