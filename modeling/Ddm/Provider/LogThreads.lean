/-
  Ddm.Provider.LogThreads — the stream of the provider's log between its threads.

  The PHP thread and those of the ZooKeeper client all log. `prepare_log` looks after
  `g_log_h.fp` under the lock, but `logv` calls `fwrite` on it when the lock is released
  again, and `close_log` takes no lock: it closes the stream, sets `fp`, destroys the mutex
  and sets `status`, in turn. A step is one of a thread's calls or writes that touch the
  stream; whether `prepare_log` finds another file under the day's path and whether
  `fopen` succeeds is the environment's. Streams are numbered as they are opened.
  `log_lock_type` is "thread" or "process"; with "none" the library is for one thread.

  Proved, for every order of the steps of any number of threads: no stream is closed
  twice, written once it is closed, or NULL when it is written or closed, and no mutex is
  locked once it is destroyed or destroyed while it is held, as long as no file is changed
  for another while a thread is ahead of its `fwrite`, none is kept when there is none,
  `close_log` begins when no other call is under way, and no line begins before it is done;
  and each other step leads on to a violation (`streams_clean`).
-/

import Mathlib.Logic.Function.Basic
import Ddm.Lib.Machine
import Ddm.Lib.Resource

namespace Ddm.Provider.LogThreads

open Ddm.Lib Ddm.Lib.Machine Ddm.Lib.Resource

/-- The call a thread has ahead of it, with the stream it has closed. -/
inductive Pc where
  | idle
  | requireLock
  /-- The comparisons of `prepare_log`, and `fclose`. -/
  | compare
  | fopen (closed : Option Nat)
  | fwrite
  /-- `close_log`, once it has found a stream. -/
  | fclose
  | setNull (closed : Option Nat)
  | destroyLock
  | setStatus
  deriving DecidableEq

structure St where
  /-- `g_log_h.fp`, `none` for NULL. -/
  fp : Option Nat
  nextFile : Nat
  /-- `filename` has been set. -/
  named : Bool
  status : Bool
  lock : Option Nat
  destroyed : Bool
  pc : Nat → Pc
  ops : List (Op Nat)
  /-- `fwrite` or `fclose` was called on NULL, or the mutex misused. -/
  crashed : Bool

inductive Label where
  | logWrite (th : Nat)
  | closeLog (th : Nat)
  /-- `yes`: the file is another one, or `fopen` succeeds. -/
  | next (th : Nat) (yes : Bool)

def moveTo (s : St) (th : Nat) (pc : Pc) : St := { s with pc := Function.update s.pc th pc }

def requireLock (s : St) (th : Nat) : St := { s with lock := some th, crashed := s.crashed || s.destroyed }

def releaseLock (s : St) : St := { s with lock := none }

/-- `fclose (g_log_h.fp)`, unless it is NULL. -/
def closeFile (s : St) : St := { s with ops := s.ops ++ calls .release id s.fp }

def openFile (s : St) : St := { s with fp := some s.nextFile, nextFile := s.nextFile + 1, named := true }

def writeFile (s : St) : St := { s with ops := s.ops ++ calls .use id s.fp, crashed := s.crashed || s.fp.isNone }

/-- `close_log` has seen a stream, and calls `fclose` on what is there by now. -/
def closeSeen (s : St) : St := { closeFile s with crashed := s.crashed || s.fp.isNone }

def destroyLock (s : St) : St := { s with destroyed := true, crashed := s.crashed || s.lock.isSome }

/-- `logv` from `require_lock` on, and `close_log` from `fclose` on. -/
def nextCall (s : St) (th : Nat) (yes : Bool) : Pc → Option St
  | .idle => none
  | .requireLock => if s.lock = none then some (moveTo (requireLock s th) th .compare) else none
  | .compare =>
    -- the first file is always another one
    if yes || !s.named then some (moveTo (closeFile s) th (.fopen s.fp))
    else some (moveTo (releaseLock s) th .fwrite)
  | .fopen _ =>
    if yes then some (moveTo (releaseLock (openFile s)) th .fwrite)
    -- `occur_error`
    else some (moveTo (releaseLock { s with fp := none, status := false }) th .idle)
  | .fwrite => some (moveTo (writeFile s) th .idle)
  | .fclose => some (moveTo (closeSeen s) th (.setNull s.fp))
  | .setNull _ => some (moveTo { s with fp := none } th .destroyLock)
  | .destroyLock => some (moveTo (destroyLock s) th .setStatus)
  | .setStatus => some (moveTo { s with status := false } th .idle)

/-- The tests of `close_log`. -/
def closeLog (s : St) (th : Nat) : St := if s.status = false ∨ s.fp = none then s else moveTo s th .fclose

/-- With `n` threads. -/
def step (n : Nat) (s : St) : Label → Option St
  | .logWrite th => if th < n ∧ s.status = true ∧ s.pc th = .idle then some (moveTo s th .requireLock) else none
  | .closeLog th => if th < n ∧ s.pc th = .idle then some (closeLog s th) else none
  | .next th yes => nextCall s th yes (s.pc th)

/-- After `open_log`. -/
def opened : St := ⟨none, 0, false, true, none, false, fun _ => .idle, [], false⟩

/-! ## Sound steps -/

/-- `close_log` is under way. -/
def Pc.closing : Pc → Bool
  | .fclose | .setNull _ | .destroyLock | .setStatus => true
  | _ => false

def SoundCall (n : Nat) (s : St) (yes : Bool) : Pc → Prop
  | .compare => if yes || !s.named then ∀ x < n, s.pc x ≠ .fwrite else s.fp ≠ none
  | _ => True

def Sound (n : Nat) (s : St) : Label → Prop
  | .logWrite _ => ∀ x < n, (s.pc x).closing = false
  | .closeLog _ => s.status = false ∨ s.fp = none ∨ ∀ x < n, s.pc x = .idle
  | .next th yes => SoundCall n s yes (s.pc th)

instance (n : Nat) (s : St) (yes : Bool) (p : Pc) : Decidable (SoundCall n s yes p) :=
  match p with
  | .compare => inferInstanceAs (Decidable (if yes || !s.named then ∀ x < n, s.pc x ≠ .fwrite else s.fp ≠ none))
  | .idle | .requireLock | .fopen _ | .fwrite | .fclose | .setNull _ | .destroyLock | .setStatus => .isTrue trivial

instance (n : Nat) (s : St) (a : Label) : Decidable (Sound n s a) :=
  match a with
  | .logWrite _ => inferInstanceAs (Decidable (∀ x < n, (s.pc x).closing = false))
  | .closeLog _ => inferInstanceAs (Decidable (_ ∨ _ ∨ ∀ x < n, s.pc x = Pc.idle))
  | .next th yes => inferInstanceAs (Decidable (SoundCall n s yes (s.pc th)))

/-- No stream is closed twice or written after that, none is NULL when it is written or
    closed, and the mutex is there when it is locked. -/
def Fine (s : St) : Prop := Clean s.ops ∧ s.crashed = false

/-! ## The invariant -/

def Pc.locked : Pc → Bool
  | .compare | .fopen _ => true
  | _ => false

/-- The stream a thread has closed and not replaced. -/
def Pc.closed : Pc → Option Nat
  | .fopen closed | .setNull closed => closed
  | _ => none

/-- The thread uses the stream next. -/
def Pc.uses : Pc → Bool
  | .fwrite | .fclose => true
  | _ => false

structure Inv (n : Nat) (s : St) : Prop where
  clean : Clean s.ops
  alive : s.crashed = false
  slot : Slot s.ops id s.fp s.nextFile (Pc.closed ∘ s.pc)
  holder : ∀ th, (s.pc th).locked = true ↔ s.lock = some th
  held : ∀ th, (s.pc th).uses = true → s.fp ≠ none
  apart : ∀ x y closed, (s.pc x).uses = true → s.pc y ≠ .fopen closed
  named : ∀ th, s.fp ≠ none ∨ (s.pc th).closing = true → s.named = true
  alone : ∀ th, (s.pc th).closing = true → ∀ x, x ≠ th → s.pc x = .idle
  destroyed : s.destroyed = true → ∀ th, s.pc th ≠ .idle → s.pc th = .setStatus
  off : s.destroyed = true → s.status = true → ∃ th, s.pc th = .setStatus
  gone : ∀ th, s.pc th = .setStatus → s.destroyed = true
  null : ∀ th, s.pc th = .destroyLock ∨ s.pc th = .setStatus → s.fp = none
  among : ∀ th, s.pc th ≠ .idle → th < n

variable {n : Nat} {s t : St} {th : Nat} {q : Pc} {pc : Nat → Pc} {yes : Bool}

theorem id_injective : Function.Injective (id : Nat → Nat) := fun _ _ h => h

theorem inv_opened : Inv n opened :=
  ⟨clean_nil, rfl, .empty, fun _ => ⟨nofun, nofun⟩, nofun, nofun,
    fun _ h => by rcases h with h | h <;> exact absurd h nofun, nofun, nofun, nofun, nofun,
    fun _ h => by rcases h with h | h <;> exact absurd h nofun, fun _ h => absurd rfl h⟩

/-! ### The threads -/

theorem Inv.unlocked (h : Inv n s) (hl : s.lock = none) (x : Nat) : (s.pc x).locked = false := by
  by_contra hx
  rw [Bool.not_eq_false, h.holder, hl] at hx
  cases hx

theorem Inv.others (h : Inv n s) (hth : (s.pc th).locked = true) {x : Nat} (hx : x ≠ th) :
    (s.pc x).locked = false := by
  by_contra hne
  rw [Bool.not_eq_false, h.holder, (h.holder th).mp hth] at hne
  exact hx (Option.some.inj hne).symm

/-- While a line is on its way nobody closes the log. -/
theorem Inv.quiet (h : Inv n s) (hne : s.pc th ≠ .idle) (hc : (s.pc th).closing = false) (x : Nat) :
    (s.pc x).closing = false := by
  by_contra hx
  rw [Bool.not_eq_false] at hx
  by_cases e : th = x
  · rw [← e, hc] at hx
    cases hx
  · exact hne (h.alone x hx th e)

theorem Inv.undestroyed (h : Inv n s) (hne : s.pc th ≠ .idle) (hc : s.pc th ≠ .setStatus) : s.destroyed = false := by
  by_contra hd
  rw [Bool.not_eq_false] at hd
  exact hc (h.destroyed hd th hne)

theorem hand_none {p : Pc} (hpc : s.pc th = p) (hp : p.closed = none) : (Pc.closed ∘ s.pc) th = none := by
  rw [Function.comp_apply, hpc, hp]

/-- A thread without the lock moves on, and stays without it. -/
theorem holder_move (h : Inv n s) (hth : (s.pc th).locked = false) (hq : q.locked = false) (x : Nat) :
    (Function.update s.pc th q x).locked = true ↔ s.lock = some x := by
  by_cases hx : x = th
  · rw [hx, Function.update_self, hq, ← h.holder, hth]
  · rw [Function.update_of_ne hx]
    exact h.holder x

/-- The holder gives the lock back. -/
theorem holder_release (others : ∀ x, x ≠ th → (pc x).locked = false) (hq : q.locked = false) (x : Nat) :
    (Function.update pc th q x).locked = true ↔ none = some x := by
  by_cases hx : x = th
  · rw [hx, Function.update_self, hq]
    exact ⟨nofun, nofun⟩
  · rw [Function.update_of_ne hx, others x hx]
    exact ⟨nofun, nofun⟩

theorem among_move (h : ∀ x, pc x ≠ .idle → x < n) (hth : th < n) (x : Nat)
    (hx : Function.update pc th q x ≠ .idle) : x < n := by
  by_cases he : x = th
  · rw [he]
    exact hth
  · rw [Function.update_of_ne he] at hx
    exact h x hx

/-- Who is ahead of using the stream when a thread has moved on. -/
theorem uses_move {x : Nat} (hx : (Function.update pc th q x).uses = true) : (pc x).uses = true ∨ q.uses = true := by
  by_cases he : x = th
  · rw [he, Function.update_self] at hx
    exact .inr hx
  · rw [Function.update_of_ne he] at hx
    exact .inl hx

/-! ### Lines -/

/-- A thread goes on with its line. -/
theorem Inv.line (h : Inv n s) (hquiet : ∀ x, (s.pc x).closing = false) (hth : th < n)
    (hpc : t.pc = Function.update s.pc th q) (hq : q.closing = false) (hd : t.destroyed = false) (clean : Clean t.ops)
    (alive : t.crashed = false)
    (slot : Slot t.ops id t.fp t.nextFile (Function.update (Pc.closed ∘ s.pc) th q.closed))
    (holder : ∀ x, (Function.update s.pc th q x).locked = true ↔ t.lock = some x)
    (held : ∀ x, (Function.update s.pc th q x).uses = true → t.fp ≠ none)
    (apart : ∀ x y closed, (Function.update s.pc th q x).uses = true → Function.update s.pc th q y ≠ .fopen closed)
    (named : t.fp ≠ none → t.named = true) : Inv n t := by
  have hopen : ∀ x p, p.closing = true → t.pc x ≠ p := fun x p hp e => by
    rw [← e, hpc] at hp
    by_cases ex : x = th
    · rw [ex, Function.update_self, hq] at hp
      cases hp
    · rw [Function.update_of_ne ex, hquiet] at hp
      cases hp
  have hundone : t.destroyed ≠ true := by rw [hd]; exact Bool.false_ne_true
  refine
    { clean, alive
      slot := by rw [hpc, Function.comp_update]; exact slot
      holder := by rw [hpc]; exact holder
      held := by rw [hpc]; exact held
      apart := by rw [hpc]; exact apart
      named := fun x hx => named (hx.resolve_right fun hx => hopen x _ hx rfl)
      alone := fun x hx => absurd rfl (hopen x _ hx)
      destroyed := fun hd' => absurd hd' hundone
      off := fun hd' => absurd hd' hundone
      gone := fun x hx => absurd hx (hopen x _ rfl)
      null := fun x hx => ?_
      among := by rw [hpc]; exact among_move h.among hth }
  rcases hx with hx | hx <;> exact absurd hx (hopen x _ rfl)

/-- Who does not come to use the stream, nor closes it. -/
theorem apart_move (h : Inv n s) (huses : q.uses = false) (hq : ∀ closed, q ≠ .fopen closed) (x y : Nat)
    (closed : Option Nat) (hx : (Function.update s.pc th q x).uses = true) :
    Function.update s.pc th q y ≠ .fopen closed := by
  have hx := (uses_move hx).resolve_right (by rw [huses]; exact Bool.false_ne_true)
  by_cases e : y = th
  · rw [e, Function.update_self]
    exact hq closed
  · rw [Function.update_of_ne e]
    exact h.apart x y closed hx

/-- Who has the lock finds nobody between `fclose` and `fopen`. -/
theorem apart_locked (h : Inv n s) (hlocked : (s.pc th).locked = true) (hq : ∀ closed, q ≠ .fopen closed) (y : Nat)
    (closed : Option Nat) : Function.update s.pc th q y ≠ .fopen closed := by
  by_cases e : y = th
  · rw [e, Function.update_self]
    exact hq closed
  · rw [Function.update_of_ne e]
    intro hy
    have := h.others hlocked e
    rw [hy] at this
    cases this

theorem held_move (h : Inv n s) (hq : q.uses = false) (x : Nat) (hx : (Function.update s.pc th q x).uses = true) :
    s.fp ≠ none :=
  h.held x ((uses_move hx).resolve_right (by rw [hq]; exact Bool.false_ne_true))

theorem inv_logWrite (h : Inv n s) (hok : ∀ x < n, (s.pc x).closing = false) (hth : th < n) (hstatus : s.status = true)
    (hidle : s.pc th = .idle) : Inv n (moveTo s th .requireLock) := by
  have hquiet : ∀ x, (s.pc x).closing = false := fun x => by
    by_cases e : s.pc x = .idle
    · rw [e]
      rfl
    · exact hok x (h.among x e)
  have hd : s.destroyed = false := by
    by_contra hd
    rw [Bool.not_eq_false] at hd
    obtain ⟨x, hx⟩ := h.off hd hstatus
    have := hquiet x
    rw [hx] at this
    cases this
  exact h.line hquiet hth rfl rfl hd h.clean h.alive (h.slot.keep (hand_none hidle rfl))
    (holder_move h (hidle ▸ rfl) rfl) (held_move h rfl) (apart_move h rfl nofun) fun hfp => h.named th (.inl hfp)

theorem inv_requireLock (h : Inv n s) (hl : s.lock = none) (hpc : s.pc th = .requireLock) :
    Inv n (moveTo (requireLock s th) th .compare) := by
  have hne : s.pc th ≠ .idle := by rw [hpc]; nofun
  have hd := h.undestroyed hne (by rw [hpc]; nofun)
  refine h.line (h.quiet hne (by rw [hpc]; rfl)) (h.among th hne) rfl rfl hd h.clean ?_
    (h.slot.keep (hand_none hpc rfl)) (fun x => ?_) (held_move h rfl) (apart_move h rfl nofun)
    fun hfp => h.named th (.inl hfp)
  · show (s.crashed || s.destroyed) = false
    rw [h.alive, hd]
    rfl
  · show (Function.update s.pc th Pc.compare x).locked = true ↔ some th = some x
    by_cases hx : x = th
    · rw [hx, Function.update_self]
      exact ⟨fun _ => rfl, fun _ => rfl⟩
    · rw [Function.update_of_ne hx, h.unlocked hl x]
      exact ⟨nofun, fun he => absurd (Option.some.inj he).symm hx⟩

/-- What the stream of a thread that compares is safe from: nobody has closed it. -/
theorem Inv.free_compare (h : Inv n s) (hpc : s.pc th = .compare) : Free s.fp (Pc.closed ∘ s.pc) := by
  intro x k hk
  have hx : x ≠ th := fun e => by rw [e, Function.comp_apply, hpc] at hk; cases hk
  have hunlocked := h.others (by rw [hpc]; rfl) hx
  have hquiet := h.quiet (by rw [hpc]; nofun) (by rw [hpc]; rfl) x
  rw [Function.comp_apply] at hk
  cases hp : s.pc x <;> rw [hp] at hk hunlocked hquiet
  case fopen => cases hunlocked
  case setNull => cases hquiet
  case idle | requireLock | compare | fwrite | fclose | destroyLock | setStatus => cases hk

/-- Nor has anybody closed the stream of a thread that uses it. -/
theorem Inv.free_uses (h : Inv n s) (hth : (s.pc th).uses = true) : Free s.fp (Pc.closed ∘ s.pc) := by
  intro x k hk
  rw [Function.comp_apply] at hk
  cases hp : s.pc x <;> rw [hp] at hk
  case fopen closed => exact absurd hp (h.apart th x closed hth)
  case setNull closed =>
    have hne : th ≠ x := fun e => by rw [e, hp] at hth; cases hth
    rw [h.alone x (by rw [hp]; rfl) th hne] at hth
    cases hth
  case idle | requireLock | compare | fwrite | fclose | destroyLock | setStatus => cases hk

theorem inv_change (h : Inv n s) (hpc : s.pc th = .compare) (hnone : ∀ x < n, s.pc x ≠ .fwrite) :
    Inv n (moveTo (closeFile s) th (.fopen s.fp)) := by
  have hne : s.pc th ≠ .idle := by rw [hpc]; nofun
  have hquiet := h.quiet hne (by rw [hpc]; rfl)
  have huses : ∀ x, (s.pc x).uses ≠ true := fun x hx => by
    have hwrite := hnone x (h.among x fun e => by rw [e] at hx; cases hx)
    have hclose := hquiet x
    cases hp : s.pc x <;> rw [hp] at hx hwrite hclose
    case fwrite => exact hwrite rfl
    case fclose => cases hclose
    case idle | requireLock | compare | fopen | setNull | destroyLock | setStatus => cases hx
  have hnobody : ∀ x, (Function.update s.pc th (.fopen s.fp) x).uses ≠ true := fun x hx =>
    huses x ((uses_move hx).resolve_right nofun)
  refine h.line hquiet (h.among th hne) rfl rfl (h.undestroyed hne (by rw [hpc]; nofun))
    (h.slot.clean h.clean (h.free_compare hpc) fun _ => rfl) h.alive (h.slot.release id_injective (h.free_compare hpc))
    (fun x => ?_) (fun x hx => absurd hx (hnobody x)) (fun x _ _ hx => absurd hx (hnobody x))
    fun hfp => h.named th (.inl hfp)
  show (Function.update s.pc th (.fopen s.fp) x).locked = true ↔ s.lock = some x
  rw [← h.holder]
  by_cases hx : x = th
  · rw [hx, Function.update_self, hpc]
    exact ⟨fun _ => rfl, fun _ => rfl⟩
  · rw [Function.update_of_ne hx]

theorem inv_keep (h : Inv n s) (hpc : s.pc th = .compare) (hfp : s.fp ≠ none) :
    Inv n (moveTo (releaseLock s) th .fwrite) := by
  have hne : s.pc th ≠ .idle := by rw [hpc]; nofun
  have hlocked : (s.pc th).locked = true := by rw [hpc]; rfl
  exact h.line (h.quiet hne (by rw [hpc]; rfl)) (h.among th hne) rfl rfl (h.undestroyed hne (by rw [hpc]; nofun))
    h.clean h.alive (h.slot.keep (hand_none hpc rfl)) (holder_release (fun _ => h.others hlocked) rfl)
    (fun _ _ => hfp) (fun _ y closed _ => apart_locked (q := .fwrite) h hlocked nofun y closed)
    fun hfp => h.named th (.inl hfp)

theorem inv_open {closed : Option Nat} (h : Inv n s) (hpc : s.pc th = .fopen closed) :
    Inv n (moveTo (releaseLock (openFile s)) th .fwrite) := by
  have hne : s.pc th ≠ .idle := by rw [hpc]; nofun
  have hlocked : (s.pc th).locked = true := by rw [hpc]; rfl
  exact h.line (h.quiet hne (by rw [hpc]; rfl)) (h.among th hne) rfl rfl (h.undestroyed hne (by rw [hpc]; nofun))
    h.clean h.alive h.slot.opened (holder_release (fun _ => h.others hlocked) rfl)
    (fun _ _ => Option.some_ne_none _) (fun _ y closed _ => apart_locked (q := .fwrite) h hlocked nofun y closed)
    fun _ => rfl

theorem inv_openFails {closed : Option Nat} (h : Inv n s) (hpc : s.pc th = .fopen closed) :
    Inv n (moveTo (releaseLock { s with fp := none, status := false }) th .idle) := by
  have hne : s.pc th ≠ .idle := by rw [hpc]; nofun
  have hlocked : (s.pc th).locked = true := by rw [hpc]; rfl
  refine h.line (h.quiet hne (by rw [hpc]; rfl)) (h.among th hne) rfl rfl (h.undestroyed hne (by rw [hpc]; nofun))
    h.clean h.alive h.slot.emptied (holder_release (fun _ => h.others hlocked) rfl) (fun x hx => ?_)
    (apart_move h rfl nofun) fun hfp => absurd rfl hfp
  -- nobody uses what was closed
  exact absurd hpc (h.apart x th closed ((uses_move hx).resolve_right nofun))

theorem inv_write (h : Inv n s) (hpc : s.pc th = .fwrite) : Inv n (moveTo (writeFile s) th .idle) := by
  have hne : s.pc th ≠ .idle := by rw [hpc]; nofun
  have huses : (s.pc th).uses = true := by rw [hpc]; rfl
  have hslot : Slot (s.ops ++ calls .use id s.fp) id s.fp s.nextFile (Pc.closed ∘ s.pc) := h.slot.frame fun k hk => by
    obtain ⟨_, -, he⟩ := mem_calls.mp hk
    cases he
  refine h.line (h.quiet hne (by rw [hpc]; rfl)) (h.among th hne) rfl rfl (h.undestroyed hne (by rw [hpc]; nofun))
    (h.slot.clean h.clean (h.free_uses huses) fun _ => rfl) ?_ (hslot.keep (hand_none hpc rfl))
    (holder_move h (hpc ▸ rfl) rfl) (held_move h rfl) (apart_move h rfl nofun) fun hfp => h.named th (.inl hfp)
  show (s.crashed || s.fp.isNone) = false
  rw [h.alive, Bool.false_or]
  exact Option.isNone_eq_false_iff.mpr (Option.isSome_iff_ne_none.mpr (h.held th huses))

/-! ### Closing -/

/-- A thread goes on with `close_log`, and the others have no call under way. -/
theorem Inv.close (halone : ∀ x, x ≠ th → s.pc x = .idle) (hth : th < n) (hpc : t.pc = Function.update s.pc th q)
    (hlocked : q.locked = false) (hl : t.lock = none) (clean : Clean t.ops) (alive : t.crashed = false)
    (slot : Slot t.ops id t.fp t.nextFile (Function.update (Pc.closed ∘ s.pc) th q.closed))
    (held : q.uses = true → t.fp ≠ none) (named : t.named = true)
    (destroyed : t.destroyed = true ↔ q = .setStatus ∨ q = .idle) (off : q = .idle → t.status = false)
    (null : q = .destroyLock ∨ q = .setStatus → t.fp = none) : Inv n t := by
  have hself : t.pc th = q := by rw [hpc, Function.update_self]
  have hother : ∀ x, x ≠ th → t.pc x = .idle := fun x hx => by rw [hpc, Function.update_of_ne hx, halone x hx]
  have hwho : ∀ x, t.pc x ≠ .idle → x = th := fun x hx => by
    by_contra e
    exact hx (hother x e)
  refine
    { clean, alive
      slot := by rw [hpc, Function.comp_update]; exact slot
      holder := fun x => ?_
      held := fun x hx => ?_
      apart := fun x y closed _ hy => ?_
      named := fun _ _ => named
      alone := fun x hx y hy => ?_
      destroyed := fun hd x hx => ?_
      off := fun hd hs => ⟨th, ?_⟩
      gone := fun x hx => destroyed.mpr (.inl ?_)
      null := fun x hx => null ?_
      among := fun x hx => by rw [hwho x hx]; exact hth }
  · rw [hl]
    refine ⟨fun hx => ?_, nofun⟩
    rw [hwho x (fun e => by rw [e] at hx; cases hx), hself, hlocked] at hx
    cases hx
  · rw [hwho x (fun e => by rw [e] at hx; cases hx), hself] at hx
    exact held hx
  · have hne : t.pc y ≠ .idle := by rw [hy]; nofun
    rw [hwho y hne, hself] at hy
    rw [hy] at hlocked
    cases hlocked
  · rw [hwho x (fun e => by rw [e] at hx; cases hx)] at hy
    exact hother y hy
  · obtain rfl := hwho x hx
    rw [hself] at hx ⊢
    exact (destroyed.mp hd).resolve_right hx
  · rw [hself]
    refine (destroyed.mp hd).resolve_right fun e => ?_
    rw [off e] at hs
    cases hs
  · rw [hwho x (by rw [hx]; nofun), hself] at hx
    exact hx
  · rwa [hwho x (by rcases hx with hx | hx <;> rw [hx] <;> nofun), hself] at hx

/-- Who closes the log has no lock, and nobody else has. -/
theorem Inv.lock_none (h : Inv n s) (hunlocked : ∀ x, (s.pc x).locked = false) : s.lock = none := by
  by_contra hl
  obtain ⟨x, hx⟩ := Option.ne_none_iff_exists'.mp hl
  rw [← h.holder, hunlocked x] at hx
  cases hx

theorem Inv.closing_unlocked (h : Inv n s) (hc : (s.pc th).closing = true) (x : Nat) : (s.pc x).locked = false := by
  by_cases e : x = th
  · rw [e]
    cases hp : s.pc th <;> rw [hp] at hc
    case fclose | setNull | destroyLock | setStatus => rfl
    case idle | requireLock | compare | fopen | fwrite => cases hc
  · rw [h.alone th hc x e]
    rfl

theorem inv_closeLog (h : Inv n s) (hth : th < n) (hok : Sound n s (.closeLog th)) : Inv n (closeLog s th) := by
  unfold closeLog
  split
  case isTrue => exact h
  case isFalse hne =>
    rw [not_or, Bool.not_eq_false] at hne
    have hidle : ∀ x, s.pc x = .idle := fun x => by
      by_contra hx
      refine hx (((hok.resolve_left ?_).resolve_left hne.2) x (h.among x hx))
      rw [hne.1]
      exact Bool.noConfusion
    have hd : s.destroyed ≠ true := fun hd => by
      obtain ⟨x, hx⟩ := h.off hd hne.1
      rw [hidle x] at hx
      cases hx
    exact Inv.close (fun x _ => hidle x) hth rfl rfl (h.lock_none fun x => by rw [hidle x]; rfl) h.clean h.alive
      (h.slot.keep (hand_none (hidle th) rfl)) (fun _ => hne.2) (h.named th (.inl hne.2))
      ⟨fun hd' => absurd hd' hd, fun e => by rcases e with e | e <;> cases e⟩ nofun
      fun e => by rcases e with e | e <;> cases e

theorem inv_fclose (h : Inv n s) (hpc : s.pc th = .fclose) : Inv n (moveTo (closeSeen s) th (.setNull s.fp)) := by
  have hne : s.pc th ≠ .idle := by rw [hpc]; nofun
  have hc : (s.pc th).closing = true := by rw [hpc]; rfl
  have huses : (s.pc th).uses = true := by rw [hpc]; rfl
  have hfree := h.free_uses huses
  have hd : s.destroyed ≠ true := by
    rw [h.undestroyed hne (by rw [hpc]; nofun)]
    exact Bool.false_ne_true
  refine Inv.close (h.alone th hc) (h.among th hne) rfl rfl (h.lock_none (h.closing_unlocked hc))
    (h.slot.clean h.clean hfree fun _ => rfl) ?_ (h.slot.release id_injective hfree) nofun (h.named th (.inr hc))
    ⟨fun hd' => absurd hd' hd, fun e => by rcases e with e | e <;> cases e⟩ nofun
    fun e => by rcases e with e | e <;> cases e
  show (s.crashed || s.fp.isNone) = false
  rw [h.alive, Bool.false_or]
  exact Option.isNone_eq_false_iff.mpr (Option.isSome_iff_ne_none.mpr (h.held th huses))

theorem inv_setNull {closed : Option Nat} (h : Inv n s) (hpc : s.pc th = .setNull closed) :
    Inv n (moveTo { s with fp := none } th .destroyLock) := by
  have hne : s.pc th ≠ .idle := by rw [hpc]; nofun
  have hc : (s.pc th).closing = true := by rw [hpc]; rfl
  have hd : s.destroyed ≠ true := by
    rw [h.undestroyed hne (by rw [hpc]; nofun)]
    exact Bool.false_ne_true
  exact Inv.close (h.alone th hc) (h.among th hne) rfl rfl (h.lock_none (h.closing_unlocked hc)) h.clean h.alive
    h.slot.emptied nofun (h.named th (.inr hc)) ⟨fun hd' => absurd hd' hd, fun e => by rcases e with e | e <;> cases e⟩
    nofun fun _ => rfl

theorem inv_destroyLock (h : Inv n s) (hpc : s.pc th = .destroyLock) :
    Inv n (moveTo (destroyLock s) th .setStatus) := by
  have hc : (s.pc th).closing = true := by rw [hpc]; rfl
  have hl := h.lock_none (h.closing_unlocked hc)
  refine Inv.close (h.alone th hc) (h.among th (by rw [hpc]; nofun)) rfl rfl hl h.clean ?_
    (h.slot.keep (hand_none hpc rfl)) nofun (h.named th (.inr hc)) ⟨fun _ => .inl rfl, fun _ => rfl⟩ nofun
    fun _ => h.null th (.inl hpc)
  show (s.crashed || s.lock.isSome) = false
  rw [h.alive, hl]
  rfl

theorem inv_setStatus (h : Inv n s) (hpc : s.pc th = .setStatus) :
    Inv n (moveTo { s with status := false } th .idle) := by
  have hc : (s.pc th).closing = true := by rw [hpc]; rfl
  exact Inv.close (h.alone th hc) (h.among th (by rw [hpc]; nofun)) rfl rfl (h.lock_none (h.closing_unlocked hc))
    h.clean h.alive (h.slot.keep (hand_none hpc rfl)) nofun (h.named th (.inr hc))
    ⟨fun _ => .inr rfl, fun _ => h.gone th hpc⟩ (fun _ => rfl) fun e => by rcases e with e | e <;> cases e

/-! ### Every step -/

theorem inv_nextCall {p : Pc} (h : Inv n s) (hpc : s.pc th = p) (hok : SoundCall n s yes p)
    (hs : nextCall s th yes p = some t) : Inv n t := by
  cases p with
  | idle => cases hs
  | requireLock =>
    simp only [nextCall] at hs
    split at hs
    case isTrue hl =>
      obtain rfl := Option.some.inj hs
      exact inv_requireLock h hl hpc
    case isFalse => cases hs
  | compare =>
    simp only [nextCall] at hs
    unfold SoundCall at hok
    split at hs
    case isTrue hyes =>
      obtain rfl := Option.some.inj hs
      rw [if_pos hyes] at hok
      exact inv_change h hpc hok
    case isFalse hno =>
      obtain rfl := Option.some.inj hs
      rw [if_neg hno] at hok
      exact inv_keep h hpc hok
  | fopen closed =>
    simp only [nextCall] at hs
    split at hs
    · obtain rfl := Option.some.inj hs
      exact inv_open h hpc
    · obtain rfl := Option.some.inj hs
      exact inv_openFails h hpc
  | fwrite =>
    obtain rfl := Option.some.inj hs
    exact inv_write h hpc
  | fclose =>
    obtain rfl := Option.some.inj hs
    exact inv_fclose h hpc
  | setNull closed =>
    obtain rfl := Option.some.inj hs
    exact inv_setNull h hpc
  | destroyLock =>
    obtain rfl := Option.some.inj hs
    exact inv_destroyLock h hpc
  | setStatus =>
    obtain rfl := Option.some.inj hs
    exact inv_setStatus h hpc

theorem inv_step {a : Label} (h : Inv n s) (hok : Sound n s a) (hs : step n s a = some t) : Inv n t := by
  cases a with
  | logWrite th =>
    rw [step] at hs
    split at hs
    case isTrue hcond =>
      obtain rfl := Option.some.inj hs
      exact inv_logWrite h hok hcond.1 hcond.2.1 hcond.2.2
    case isFalse => cases hs
  | closeLog th =>
    rw [step] at hs
    split at hs
    case isTrue hcond =>
      obtain rfl := Option.some.inj hs
      exact inv_closeLog h hcond.1 hok
    case isFalse => cases hs
  | next th yes => exact inv_nextCall h rfl hok hs

/-! ## Steps that are not sound -/

/-- Some run leads on to a violation. -/
def LeadsOn (n : Nat) (s : St) : Prop := ∃ t, Reach (step n) (fun _ _ => True) s t ∧ ¬Fine t

theorem leads_on_crashed (h : s.crashed = true) : LeadsOn n s :=
  ⟨s, .start, fun hfine => by rw [hfine.2] at h; cases h⟩

/-- `th` makes its next call. -/
theorem LeadsOn.next {p : Pc} (th : Nat) (yes : Bool) (hpc : s.pc th = p) (hs : nextCall s th yes p = some t)
    (h : LeadsOn n t) : LeadsOn n s := by
  obtain ⟨u, hu, hbad⟩ := h
  refine ⟨u, (Reach.next (.next th yes) .start trivial ?_).trans hu, hbad⟩
  show nextCall s th yes (s.pc th) = some t
  rw [hpc, hs]

theorem write_leads_on (th : Nat) (hpc : s.pc th = .fwrite) (hfp : s.fp = none) : LeadsOn n s := by
  refine .next th true hpc rfl (leads_on_crashed ?_)
  show (s.crashed || s.fp.isNone) = true
  rw [hfp]
  exact Bool.or_true _

/-- A thread keeps what it takes for the same file, when there is none. -/
theorem keep_leads_on (hpc : s.pc th = .compare) (hnamed : s.named = true) (hfp : s.fp = none) : LeadsOn n s :=
  .next th false hpc (if_neg (by rw [hnamed]; decide)) (write_leads_on th (Function.update_self ..) hfp)

/-- Another thread is ahead of its `fwrite`, and the file cannot be opened. -/
theorem change_leads_on {x : Nat} (hpc : s.pc th = .compare) (hx : s.pc x = .fwrite) :
    LeadsOn n (moveTo (closeFile s) th (.fopen s.fp)) := by
  have hne : x ≠ th := fun he => by rw [he, hpc] at hx; cases hx
  refine .next th false (Function.update_self ..) rfl (write_leads_on x ?_ rfl)
  show Function.update (Function.update s.pc th _) th _ x = _
  rw [Function.update_of_ne hne, Function.update_of_ne hne]
  exact hx

/-- `close_log` calls `fclose` when there is no stream any more. -/
theorem fclose_leads_on (th : Nat) (hpc : s.pc th = .fclose) (hfp : s.fp = none) : LeadsOn n s := by
  refine .next th true hpc rfl (leads_on_crashed ?_)
  show (s.crashed || s.fp.isNone) = true
  rw [hfp]
  exact Bool.or_true _

/-- The mutex is destroyed before a line gets to it. -/
theorem lock_leads_on (th : Nat) (hpc : s.pc th = .requireLock) (hl : s.lock = none) (hd : s.destroyed = true) :
    LeadsOn n s := by
  refine .next th true hpc (if_pos hl) (leads_on_crashed ?_)
  show (s.crashed || s.destroyed) = true
  rw [hd]
  exact Bool.or_true _

/-! ### A line begins while the log is being closed -/

theorem destroyLock_leads_on (x th : Nat) (hx : s.pc x = .destroyLock) (hth : s.pc th = .requireLock)
    (hl : s.lock = none) : LeadsOn n s := by
  have hne : th ≠ x := fun e => by rw [e, hx] at hth; cases hth
  exact .next x true hx rfl (lock_leads_on th ((Function.update_of_ne hne ..).trans hth) hl rfl)

theorem setNull_leads_on {closed : Option Nat} (x th : Nat) (hx : s.pc x = .setNull closed)
    (hth : s.pc th = .requireLock) (hl : s.lock = none) : LeadsOn n s := by
  have hne : th ≠ x := fun e => by rw [e, hx] at hth; cases hth
  exact .next x true hx rfl
    (destroyLock_leads_on x th (Function.update_self ..) ((Function.update_of_ne hne ..).trans hth) hl)

theorem line_leads_on {x : Nat} (h : Inv n s) (hidle : s.pc th = .idle) (hx : (s.pc x).closing = true) :
    LeadsOn n (moveTo s th .requireLock) := by
  have hne : x ≠ th := fun e => by rw [e, hidle] at hx; cases hx
  have hl := h.lock_none (h.closing_unlocked hx)
  have hth : (moveTo s th .requireLock).pc th = .requireLock := Function.update_self ..
  have hpc : (moveTo s th .requireLock).pc x = s.pc x := Function.update_of_ne hne ..
  cases hp : s.pc x <;> rw [hp] at hx hpc
  case idle | requireLock | compare | fopen | fwrite => cases hx
  case fclose =>
    exact .next x true hpc rfl
      (setNull_leads_on x th (Function.update_self ..) ((Function.update_of_ne hne.symm ..).trans hth) hl)
  case setNull => exact setNull_leads_on x th hpc hth hl
  case destroyLock => exact destroyLock_leads_on x th hpc hth hl
  case setStatus => exact lock_leads_on th hth hl (h.gone x hp)

/-! ### The log is closed while a call is under way -/

/-- Another thread is ahead of using the stream `close_log` takes away. -/
theorem taken_leads_on {x : Nat} (hth : s.pc th = .fclose) (hne : x ≠ th)
    (h : ∀ t, t.fp = none → t.pc x = s.pc x → t.named = s.named → t.lock = s.lock → LeadsOn n t) : LeadsOn n s := by
  refine .next th true hth rfl (.next th true (Function.update_self ..) rfl (h _ rfl ?_ rfl rfl))
  show Function.update (Function.update s.pc th _) th _ x = s.pc x
  rw [Function.update_of_ne hne, Function.update_of_ne hne]

theorem close_locked_leads_on {x : Nat} (hth : s.pc th = .fclose) (hx : (s.pc x).locked = true)
    (hnamed : s.named = true) : LeadsOn n s := by
  have hne : x ≠ th := fun e => by rw [e, hth] at hx; cases hx
  cases hp : s.pc x <;> rw [hp] at hx
  case compare =>
    refine taken_leads_on hth hne fun t hfp hpc hname _ => keep_leads_on (hpc.trans hp) (hname.trans hnamed) hfp
  case fopen =>
    exact .next x false hp rfl (fclose_leads_on th ((Function.update_of_ne hne.symm ..).trans hth) rfl)
  case idle | requireLock | fwrite | fclose | setNull | destroyLock | setStatus => cases hx

theorem close_leads_on {x : Nat} (h : Inv n s) (hidle : s.pc th = .idle) (hfp : s.fp ≠ none) (hx : s.pc x ≠ .idle) :
    LeadsOn n (moveTo s th .fclose) := by
  have hnamed := h.named th (.inl hfp)
  have hne : x ≠ th := fun e => hx (e ▸ hidle)
  have hth : (moveTo s th .fclose).pc th = .fclose := Function.update_self ..
  have hpc : (moveTo s th .fclose).pc x = s.pc x := Function.update_of_ne hne ..
  cases hp : s.pc x <;> rw [hp] at hx hpc
  case idle => exact absurd rfl hx
  case compare | fopen => exact close_locked_leads_on hth (by rw [hpc]; rfl) hnamed
  case fwrite => exact taken_leads_on hth hne fun t hnull hx _ _ => write_leads_on x (hx.trans hpc) hnull
  case requireLock =>
    cases hl : s.lock with
    | some y =>
      -- the thread with the lock
      have hy := (h.holder y).mpr hl
      have hyth : y ≠ th := fun e => by rw [e, hidle] at hy; cases hy
      refine close_locked_leads_on (x := y) hth ?_ hnamed
      show (Function.update s.pc th _ y).locked = true
      rw [Function.update_of_ne hyth, hy]
    | none =>
      refine taken_leads_on hth hne fun t hnull hx hname hlock => ?_
      exact .next x true (hx.trans hpc) (if_pos (hlock.trans hl))
        (keep_leads_on (Function.update_self ..) (hname.trans hnamed) hnull)
  case fclose =>
    refine .next x true hpc rfl (.next x true (Function.update_self ..) rfl (fclose_leads_on th ?_ rfl))
    show Function.update (Function.update (Function.update s.pc th _) x _) x _ th = _
    rw [Function.update_of_ne hne.symm, Function.update_of_ne hne.symm, Function.update_self]
  case setNull =>
    exact .next x true hpc rfl (fclose_leads_on th ((Function.update_of_ne hne.symm ..).trans hth) rfl)
  case destroyLock => exact absurd (h.null x (.inl hp)) hfp
  case setStatus => exact absurd (h.null x (.inr hp)) hfp

/-! ### Every step that is not sound -/

theorem unsound_leads_on {a : Label} (h : Inv n s) (hok : ¬Sound n s a) (hs : step n s a = some t) : LeadsOn n t := by
  cases a with
  | logWrite th =>
    rw [step] at hs
    split at hs
    case isTrue hcond =>
      obtain rfl := Option.some.inj hs
      change ¬∀ x < n, (s.pc x).closing = false at hok
      push Not at hok
      obtain ⟨x, -, hx⟩ := hok
      exact line_leads_on h hcond.2.2 ((Bool.not_eq_false _).mp hx)
    case isFalse => cases hs
  | closeLog th =>
    rw [step] at hs
    split at hs
    case isTrue hcond =>
      obtain rfl := Option.some.inj hs
      simp only [Sound, not_or] at hok
      obtain ⟨hstatus, hfp, hx⟩ := hok
      push Not at hx
      obtain ⟨x, -, hx⟩ := hx
      rw [closeLog, if_neg (not_or.mpr ⟨hstatus, hfp⟩)]
      exact close_leads_on h hcond.2 hfp hx
    case isFalse => cases hs
  | next th yes =>
    change ¬SoundCall n s yes (s.pc th) at hok
    change nextCall s th yes (s.pc th) = some t at hs
    cases hpc : s.pc th <;> rw [hpc] at hok hs
    case idle | requireLock | fopen | fwrite | fclose | setNull | destroyLock | setStatus => exact absurd trivial hok
    case compare =>
      simp only [nextCall] at hs
      unfold SoundCall at hok
      split at hs
      case isTrue hyes =>
        obtain rfl := Option.some.inj hs
        rw [if_pos hyes] at hok
        push Not at hok
        obtain ⟨x, -, hx⟩ := hok
        exact change_leads_on hpc hx
      case isFalse hno =>
        obtain rfl := Option.some.inj hs
        rw [if_neg hno, not_not] at hok
        exact write_leads_on th (Function.update_self ..) hok

/-- Runs of sound steps keep the log's streams and its mutex in order, and the steps that
    are not sound are those that lead on to a violation. -/
theorem streams_clean (n : Nat) :
    (∀ s, Reach (step n) (Sound n) opened s → Fine s ∧ ∀ x y, (s.pc x).locked = true → (s.pc y).locked = true → x = y) ∧
    ∀ s a t, Reach (step n) (Sound n) opened s → ¬Sound n s a → step n s a = some t → LeadsOn n t := by
  have hinv : ∀ s, Reach (step n) (Sound n) opened s → Inv n s := fun s hs =>
    hs.inv inv_opened fun _ _ _ h hok hstep => inv_step h hok hstep
  refine ⟨fun s hs => ?_, fun s a t hs hok hstep => unsound_leads_on (hinv s hs) hok hstep⟩
  have h := hinv s hs
  refine ⟨⟨h.clean, h.alive⟩, fun x y hx hy => ?_⟩
  rw [h.holder] at hx hy
  exact Option.some.inj (hx.symm.trans hy)

/-- A line begins between the `fclose` of `close_log` and `status = 0`. -/
theorem written_when_closed : ∃ s, Reach (step 2) (fun _ _ => True) opened s ∧ ¬Fine s := by
  have hrun : (exec (step 2) (fun _ _ => True) opened
      [.logWrite 0, .next 0 true, .next 0 true, .next 0 true, .next 0 true, .closeLog 0, .next 0 true, .logWrite 1,
        .next 1 true, .next 1 false, .next 1 true]).any
      (fun s => decide (s.ops = [.use 0, .release 0, .use 0])) = true := by decide
  obtain ⟨s, hs, hops⟩ := reach_of_exec_any hrun
  refine ⟨s, hs, fun hfine => ?_⟩
  have hclean := hfine.1
  rw [of_decide_eq_true hops] at hclean
  exact hclean.alive [.use 0, .release 0] [] 0 rfl (List.mem_cons_of_mem _ List.mem_cons_self)

end Ddm.Provider.LogThreads
