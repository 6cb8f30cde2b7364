/-
  Ddm.Watch.Handle — the ZooKeeper handle and the log stream of `zk_h` over the sessions.

  A step is one call of `fini_zk_handle` or `init_zk_handle` with what is done with its
  result, or one `get_children`. `main` opens the first handle, and exits if it cannot.
  The end of a session goes to every watcher of its handle, one after the other and all of
  them `my_zk_watcher_marshal`, so a handle's thread may deliver it any number of times,
  also while another handle's thread is at one; and `zk_h` may hold another handle by
  then. `get_children` may be any thread's: of `main` and of the thread that reopened, of
  one with a child event, of the checker and of the signal thread; so its steps come at
  any time. (`global_watch_lock` only keeps refreshes apart.) A call on a NULL handle does
  nothing. Handles and streams are numbered in the order they are opened.

  What a thread has closed and not put another in the place of yet is in its program
  counter. Proved: no handle and no stream is closed twice, and no call made on a closed
  handle, in every run whose steps are `Sound`: `make_sure_dir` and `fopen` do not fail
  while `zk_h` still has what their thread closed, and no call finds in `zk_h` what another
  thread has closed and not replaced yet. Each other step leads on to a violation
  (`handles_clean`). An `fopen` that fails once is enough (`log_closed_twice`).
-/

import Mathlib.Logic.Function.Basic
import Ddm.Lib.Machine
import Ddm.Lib.Resource

namespace Ddm.Watch.Handle

open Ddm.Lib Ddm.Lib.Machine Ddm.Lib.Resource

inductive Res where
  | zk (h : Nat)
  | logFile (f : Nat)
  deriving DecidableEq

/-- The thread of a handle handles its events. -/
inductive Thread where
  | main
  | event (h : Nat)
  deriving DecidableEq

/-- The call a thread has ahead of it, with the handle and the stream it has closed. -/
inductive Pc where
  | idle
  | zookeeperClose
  | fclose (zk : Option Nat)
  | makeSureDir (zk logFile : Option Nat)
  | fopen (zk logFile : Option Nat)
  | zookeeperInit (zk : Option Nat)
  | zooState
  | existNode
  deriving DecidableEq

structure St where
  /-- `zk_h.zk` and `zk_h.log_file`, `none` for NULL. -/
  zk : Option Nat
  logFile : Option Nat
  nextZk : Nat
  nextFile : Nat
  pc : Thread → Pc
  /-- `main` calls `exit` if `invoke_stub_init` fails. -/
  exited : Bool
  ops : List (Op Res)

inductive Label where
  | expire (h : Nat)
  /-- `ok`: the call succeeds, where it matters. -/
  | next (th : Thread) (ok : Bool)
  | getChildren

def moveTo (s : St) (th : Thread) (pc : Pc) : St := { s with pc := Function.update s.pc th pc }

/-- `zoo_state`, `zoo_exists`, `zoo_wget_children2` -/
def zooCall (s : St) : St := { s with ops := s.ops ++ calls .use .zk s.zk }

def closeZk (s : St) : St := { s with ops := s.ops ++ calls .release .zk s.zk }

def closeLog (s : St) : St := { s with ops := s.ops ++ calls .release .logFile s.logFile }

def openLog (s : St) : St := { s with logFile := some s.nextFile, nextFile := s.nextFile + 1 }

def openZk (s : St) : St := { s with zk := some s.nextZk, nextZk := s.nextZk + 1 }

/-- `init_zk_handle` fails. -/
def giveUp (s : St) (th : Thread) : St := moveTo { s with exited := s.exited || th == .main } th .idle

/-- The calls of `fini_zk_handle` and, from `makeSureDir` on, of `init_zk_handle`. -/
def nextCall (s : St) (th : Thread) (ok : Bool) : Option St :=
  match s.pc th with
  | .idle => none
  | .zookeeperClose => some (moveTo (closeZk s) th (.fclose s.zk))
  | .fclose zk => some (moveTo (closeLog s) th (.makeSureDir zk s.logFile))
  | .makeSureDir zk logFile => some (if ok then moveTo s th (.fopen zk logFile) else giveUp s th)
  -- without a log file it goes on, and `log_file` stays what it was
  | .fopen zk _ => some (moveTo (if ok then openLog s else s) th (.zookeeperInit zk))
  | .zookeeperInit _ => some (if ok then moveTo (openZk s) th .zooState else giveUp { s with zk := none } th)
  | .zooState => some (moveTo (zooCall s) th .existNode)
  | .existNode => some (if ok && s.zk.isSome then moveTo (zooCall s) th .idle else giveUp (zooCall s) th)

def advance (s : St) : Label → Option St
  | .expire h =>
    if h < s.nextZk ∧ s.pc (.event h) = .idle then some (moveTo s (.event h) .zookeeperClose) else none
  | .next th ok => nextCall s th ok
  | .getChildren => some (zooCall s)

def step (s : St) (a : Label) : Option St := if s.exited then none else advance s a

/-- `invoke_stub_init`, before `init_zk_handle`. -/
def boot : St := ⟨none, none, 0, 0, Function.update (fun _ => .idle) .main (.makeSureDir none none), false, []⟩

/-! ## Sound steps -/

/-- The handle a thread has closed and not replaced. -/
def Pc.zkClosed : Pc → Option Nat
  | .fclose zk | .makeSureDir zk _ | .fopen zk _ | .zookeeperInit zk => zk
  | _ => none

/-- The stream a thread has closed and not replaced. -/
def Pc.logClosed : Pc → Option Nat
  | .makeSureDir _ logFile | .fopen _ logFile => logFile
  | _ => none

/-- No thread is between `zookeeper_close` of the handle in `zk_h` and `zookeeper_init`. -/
def Settled (s : St) : Prop := s.zk = none ∨ ∀ h < s.nextZk, (s.pc (.event h)).zkClosed ≠ s.zk

/-- No thread is between `fclose` of the stream in `zk_h` and `fopen`. -/
def LogSettled (s : St) : Prop := s.logFile = none ∨ ∀ h < s.nextZk, (s.pc (.event h)).logClosed ≠ s.logFile

def SoundCall (s : St) (ok : Bool) : Pc → Prop
  | .zookeeperClose | .zooState | .existNode => Settled s
  | .fclose _ => LogSettled s
  | .makeSureDir zk logFile => ok = true ∨ (zk = none ∨ s.zk ≠ zk) ∧ (logFile = none ∨ s.logFile ≠ logFile)
  | .fopen _ logFile => ok = true ∨ logFile = none ∨ s.logFile ≠ logFile
  | _ => True

def Sound (s : St) : Label → Prop
  | .expire _ => True
  | .next th ok => SoundCall s ok (s.pc th)
  | .getChildren => Settled s

instance (s : St) : Decidable (Settled s) := inferInstanceAs (Decidable (_ ∨ _))

instance (s : St) : Decidable (LogSettled s) := inferInstanceAs (Decidable (_ ∨ _))

instance (s : St) (ok : Bool) (p : Pc) : Decidable (SoundCall s ok p) :=
  match p with
  | .zookeeperClose | .zooState | .existNode => inferInstanceAs (Decidable (Settled s))
  | .fclose _ => inferInstanceAs (Decidable (LogSettled s))
  | .makeSureDir .. => inferInstanceAs (Decidable (_ ∨ _ ∧ _))
  | .fopen .. => inferInstanceAs (Decidable (_ ∨ _ ∨ _))
  | .idle | .zookeeperInit _ => .isTrue trivial

instance (s : St) (a : Label) : Decidable (Sound s a) :=
  match a with
  | .expire _ => .isTrue trivial
  | .next th ok => inferInstanceAs (Decidable (SoundCall s ok (s.pc th)))
  | .getChildren => inferInstanceAs (Decidable (Settled s))

/-! ## The invariant -/

/-- What `main` may be at: it closes nothing. -/
def Pc.OfMain : Pc → Prop
  | .zookeeperClose | .fclose _ => False
  | p => p.zkClosed = none ∧ p.logClosed = none

structure Inv (s : St) : Prop where
  clean : Clean s.ops
  zk : Slot s.ops .zk s.zk s.nextZk (Pc.zkClosed ∘ s.pc)
  logFile : Slot s.ops .logFile s.logFile s.nextFile (Pc.logClosed ∘ s.pc)
  fresh : ∀ h, s.nextZk ≤ h → s.pc (.event h) = .idle
  main : (s.pc .main).OfMain

variable {s t : St} {th : Thread} {p q : Pc} {pc : Thread → Pc} {ok : Bool}

theorem zk_injective : Function.Injective Res.zk := fun _ _ h => Res.zk.inj h

theorem logFile_injective : Function.Injective Res.logFile := fun _ _ h => Res.logFile.inj h

/-- The calls on a handle close no stream. -/
theorem logFile_not_mem (f : Res → Op Res) (hf : ∀ r, (f r).of = r) (n : Nat) :
    .release (.logFile n) ∉ calls f .zk s.zk := by
  intro h
  obtain ⟨h', -, e⟩ := mem_calls.mp h
  have := congrArg Op.of e
  rw [hf] at this
  cases this

theorem zk_not_mem (n : Nat) : Op.release (Res.zk n) ∉ calls .release .logFile s.logFile := by
  intro h
  obtain ⟨_, -, e⟩ := mem_calls.mp h
  cases e

theorem use_not_mem (n : Nat) : Op.release (Res.zk n) ∉ calls .use .zk s.zk := by
  intro h
  obtain ⟨_, -, e⟩ := mem_calls.mp h
  cases e

/-! ### What is in hand -/

theorem Pc.OfMain.none (h : p.OfMain) : p.zkClosed = none ∧ p.logClosed = none := by
  cases p with
  | zookeeperClose | fclose => exact h.elim
  | idle | makeSureDir | fopen | zookeeperInit | zooState | existNode => exact h

/-- Only the threads of the handles have closed something. -/
theorem Inv.closer (hi : Inv s) (h : (s.pc th).zkClosed ≠ none ∨ (s.pc th).logClosed ≠ none) :
    ∃ k, th = .event k ∧ k < s.nextZk := by
  cases th with
  | main =>
    obtain ⟨hz, hl⟩ := hi.main.none
    rcases h with h | h
    · exact absurd hz h
    · exact absurd hl h
  | event k =>
    refine ⟨k, rfl, Nat.lt_of_not_le fun hk => ?_⟩
    rw [hi.fresh k hk] at h
    rcases h with h | h
    · exact h rfl
    · exact h rfl

theorem Inv.settled_iff (hi : Inv s) : Settled s ↔ Free s.zk (Pc.zkClosed ∘ s.pc) := by
  constructor
  · intro h th n hth hz
    rcases h with h | h
    · rw [h] at hz
      cases hz
    · obtain ⟨k, rfl, hk⟩ := hi.closer (.inl (fun e => by rw [Function.comp_apply, e] at hth; cases hth))
      exact h k hk (hth.trans hz.symm)
  · intro h
    by_contra hne
    simp only [Settled, not_or, not_forall, not_not] at hne
    obtain ⟨hz, k, -, hk⟩ := hne
    obtain ⟨n, hn⟩ := Option.ne_none_iff_exists'.mp hz
    exact h (.event k) n (hk.trans hn) hn

theorem Inv.logSettled_iff (hi : Inv s) : LogSettled s ↔ Free s.logFile (Pc.logClosed ∘ s.pc) := by
  constructor
  · intro h th n hth hl
    rcases h with h | h
    · rw [h] at hl
      cases hl
    · obtain ⟨k, rfl, hk⟩ := hi.closer (.inr (fun e => by rw [Function.comp_apply, e] at hth; cases hth))
      exact h k hk (hth.trans hl.symm)
  · intro h
    by_contra hne
    simp only [LogSettled, not_or, not_forall, not_not] at hne
    obtain ⟨hl, k, -, hk⟩ := hne
    obtain ⟨n, hn⟩ := Option.ne_none_iff_exists'.mp hl
    exact h (.event k) n (hk.trans hn) hn

/-! ### The steps -/

theorem inv_boot : Inv boot := by
  have hpc : ∀ th, th ≠ .main → boot.pc th = .idle := fun th h => by
    show Function.update (fun _ => Pc.idle) .main _ th = _
    rw [Function.update_of_ne h]
  have hnone : ∀ th, (boot.pc th).zkClosed = none ∧ (boot.pc th).logClosed = none := fun th => by
    by_cases e : th = .main
    · subst e
      exact ⟨rfl, rfl⟩
    · rw [hpc th e]
      exact ⟨rfl, rfl⟩
  have hzk : Pc.zkClosed ∘ boot.pc = fun _ => none := funext fun th => (hnone th).1
  have hlog : Pc.logClosed ∘ boot.pc = fun _ => none := funext fun th => (hnone th).2
  refine ⟨clean_nil, ?_, ?_, fun h _ => hpc _ nofun, rfl, rfl⟩
  · rw [hzk]
    exact .empty
  · rw [hlog]
    exact .empty

/-- A thread has moved on. -/
theorem Inv.moved (hi : Inv s) (hth : ∀ k, s.nextZk ≤ k → th ≠ .event k) (hpc : t.pc = Function.update s.pc th q)
    (hmain : th = .main → q.OfMain) (hnext : s.nextZk ≤ t.nextZk) (hclean : Clean t.ops)
    (hzk : Slot t.ops .zk t.zk t.nextZk (Function.update (Pc.zkClosed ∘ s.pc) th q.zkClosed))
    (hlog : Slot t.ops .logFile t.logFile t.nextFile (Function.update (Pc.logClosed ∘ s.pc) th q.logClosed)) :
    Inv t := by
  refine ⟨hclean, ?_, ?_, fun h hh => ?_, ?_⟩
  · rw [hpc, Function.comp_update]
    exact hzk
  · rw [hpc, Function.comp_update]
    exact hlog
  · have hh' := Nat.le_trans hnext hh
    rw [hpc, Function.update_of_ne (hth h hh').symm]
    exact hi.fresh h hh'
  · rw [hpc]
    by_cases e : th = .main
    · subst e
      rw [Function.update_self]
      exact hmain rfl
    · rw [Function.update_of_ne (Ne.symm e)]
      exact hi.main

/-- A thread that has a call ahead of it has its handle. -/
theorem Inv.made (hi : Inv s) (h : s.pc th ≠ .idle) (k : Nat) (hk : s.nextZk ≤ k) : th ≠ .event k := fun e =>
  h (e ▸ hi.fresh k hk)

theorem inv_expire (hi : Inv s) {h : Nat} (hlt : h < s.nextZk) (hidle : s.pc (.event h) = .idle) :
    Inv (moveTo s (.event h) .zookeeperClose) := by
  have hth : ∀ k, s.nextZk ≤ k → Thread.event h ≠ .event k := fun k hk e =>
    absurd (Thread.event.inj e) (Nat.ne_of_lt (Nat.lt_of_lt_of_le hlt hk))
  refine hi.moved hth rfl nofun (Nat.le_refl _) hi.clean (hi.zk.keep ?_) (hi.logFile.keep ?_)
  · rw [Function.comp_apply, hidle]
    rfl
  · rw [Function.comp_apply, hidle]
    rfl

theorem inv_next (hi : Inv s) (hok : SoundCall s ok (s.pc th)) (h : nextCall s th ok = some t) : Inv t := by
  have hth := @Inv.made s th hi
  have hmain : th = .main → (s.pc th).OfMain := fun e => e ▸ hi.main
  have hzk : ∀ {o}, (s.pc th).zkClosed = o → (Pc.zkClosed ∘ s.pc) th = o := id
  have hlog : ∀ {o}, (s.pc th).logClosed = o → (Pc.logClosed ∘ s.pc) th = o := id
  unfold nextCall at h
  cases hpc : s.pc th <;> rw [hpc] at h hok hth hmain hzk hlog <;> simp only [Option.some.injEq] at h
  case idle => cases h
  case zookeeperClose =>
    subst h
    have hfree := hi.settled_iff.mp hok
    exact hi.moved (hth nofun) rfl (fun e => (hmain e).elim) (Nat.le_refl _) (hi.zk.clean hi.clean hfree fun _ => rfl)
      (hi.zk.release zk_injective hfree) ((hi.logFile.frame (logFile_not_mem _ fun _ => rfl)).keep (hlog rfl))
  case fclose zk =>
    subst h
    have hfree := hi.logSettled_iff.mp hok
    exact hi.moved (hth nofun) rfl (fun e => (hmain e).elim) (Nat.le_refl _)
      (hi.logFile.clean hi.clean hfree fun _ => rfl) ((hi.zk.frame zk_not_mem).keep (hzk rfl))
      (hi.logFile.release logFile_injective hfree)
  case makeSureDir zk logFile =>
    cases ok with
    | true =>
      subst h
      exact hi.moved (hth nofun) rfl hmain (Nat.le_refl _) hi.clean (hi.zk.keep (hzk rfl)) (hi.logFile.keep (hlog rfl))
    | false =>
      subst h
      obtain ⟨hz, hl⟩ := hok.resolve_left nofun
      refine hi.moved (hth nofun) rfl (fun _ => ⟨rfl, rfl⟩) (Nat.le_refl _) hi.clean (hi.zk.drop fun n hn e => ?_)
        (hi.logFile.drop fun n hn e => ?_)
      · obtain rfl : zk = some n := (hzk rfl).symm.trans hn
        exact (hz.resolve_left nofun) e
      · obtain rfl : logFile = some n := (hlog rfl).symm.trans hn
        exact (hl.resolve_left nofun) e
  case fopen zk logFile =>
    have hmain' : th = .main → (Pc.zookeeperInit zk).OfMain := fun e => ⟨(hmain e).1, rfl⟩
    cases ok with
    | true =>
      subst h
      exact hi.moved (hth nofun) rfl hmain' (Nat.le_refl _) hi.clean (hi.zk.keep (hzk rfl)) hi.logFile.opened
    | false =>
      subst h
      refine hi.moved (hth nofun) rfl hmain' (Nat.le_refl _) hi.clean (hi.zk.keep (hzk rfl))
        (hi.logFile.drop fun n hn e => ?_)
      obtain rfl : logFile = some n := (hlog rfl).symm.trans hn
      exact ((hok.resolve_left nofun).resolve_left nofun) e
  case zookeeperInit zk =>
    cases ok with
    | true =>
      subst h
      exact hi.moved (hth nofun) rfl (fun _ => ⟨rfl, rfl⟩) (Nat.le_succ _) hi.clean hi.zk.opened
        (hi.logFile.keep (hlog rfl))
    | false =>
      subst h
      exact hi.moved (hth nofun) rfl (fun _ => ⟨rfl, rfl⟩) (Nat.le_refl _) hi.clean hi.zk.emptied
        (hi.logFile.keep (hlog rfl))
  case zooState =>
    subst h
    exact hi.moved (hth nofun) rfl (fun _ => ⟨rfl, rfl⟩) (Nat.le_refl _)
      (hi.zk.clean hi.clean (hi.settled_iff.mp hok) fun _ => rfl) ((hi.zk.frame use_not_mem).keep (hzk rfl))
      ((hi.logFile.frame (logFile_not_mem _ fun _ => rfl)).keep (hlog rfl))
  case existNode =>
    have hclean := hi.zk.clean hi.clean (hi.settled_iff.mp hok) fun _ => (rfl : (Op.use _).of = _)
    have hz := (hi.zk.frame (use_not_mem (s := s))).keep (t := th) (hzk rfl)
    have hl := (hi.logFile.frame (logFile_not_mem (s := s) Op.use fun _ => rfl)).keep (t := th) (hlog rfl)
    split at h
    · subst h
      exact hi.moved (hth nofun) rfl (fun _ => ⟨rfl, rfl⟩) (Nat.le_refl _) hclean hz hl
    · subst h
      exact hi.moved (hth nofun) rfl (fun _ => ⟨rfl, rfl⟩) (Nat.le_refl _) hclean hz hl

theorem step_eq (he : s.exited = false) (a : Label) : step s a = advance s a := by
  unfold step
  rw [he]
  rfl

theorem running {a : Label} (h : step s a = some t) : s.exited = false := by
  by_contra hne
  rw [Bool.not_eq_false] at hne
  unfold step at h
  rw [hne] at h
  cases h

theorem inv_step {a : Label} (hi : Inv s) (hok : Sound s a) (h : step s a = some t) : Inv t := by
  rw [step_eq (running h)] at h
  cases a with
  | expire k =>
    simp only [advance] at h
    split at h
    case isTrue hc =>
      obtain rfl := Option.some.inj h
      exact inv_expire hi hc.1 hc.2
    case isFalse => cases h
  | next th ok => exact inv_next hi hok h
  | getChildren =>
    obtain rfl := Option.some.inj h
    exact ⟨hi.zk.clean hi.clean (hi.settled_iff.mp hok) fun _ => rfl, hi.zk.frame use_not_mem,
      hi.logFile.frame (logFile_not_mem _ fun _ => rfl), hi.fresh, hi.main⟩

theorem inv_reach (h : Reach step Sound boot s) : Inv s := h.inv inv_boot fun _ _ _ => inv_step

/-! ## Steps that are not sound -/

theorem zooCall_unsettled (hi : Inv s) (h : ¬Settled s) {f : Res → Op Res} (hf : ∀ r, (f r).of = r) :
    ¬Clean (s.ops ++ calls f .zk s.zk) :=
  hi.zk.not_clean (fun hfree => h (hi.settled_iff.mpr hfree)) hf

/-- Runs on to a violation. -/
def LeadsOn (s : St) : Prop := ∃ u, Reach step Sound s u ∧ ¬Clean u.ops

theorem LeadsOn.next {a : Label} (hok : Sound s a) (h : step s a = some t) (ht : LeadsOn t) : LeadsOn s := by
  obtain ⟨u, hu, hbad⟩ := ht
  exact ⟨u, (Reach.next a .start hok h).trans hu, hbad⟩

/-- `zk_h.log_file` is closed, and no thread is going to put another there; the thread of
    handle `k` is done. -/
structure Stuck (s : St) (f k : Nat) : Prop where
  running : s.exited = false
  log : s.logFile = some f
  closed : .release (.logFile f) ∈ s.ops
  free : Free s.logFile (Pc.logClosed ∘ s.pc)
  below : ∀ th h, (s.pc th).zkClosed = some h → h < s.nextZk
  known : k < s.nextZk
  idle : s.pc (.event k) = .idle

variable {f k b : Nat}

theorem Stuck.logSettled (h : Stuck s f k) : LogSettled s :=
  Or.inr fun b _ e => h.free (.event b) f (e.trans h.log) h.log

theorem Stuck.fclose (h : Stuck s f k) {zk : Option Nat} (hpc : s.pc th = .fclose zk) : LeadsOn s := by
  have hs : step s (.next th true) = some (moveTo (closeLog s) th (.makeSureDir zk s.logFile)) := by
    rw [step_eq h.running, advance, nextCall, hpc]
  refine .next ?_ hs ⟨_, .start, ?_⟩
  · show SoundCall s true (s.pc th)
    rw [hpc]
    exact h.logSettled
  · show ¬Clean (s.ops ++ calls .release .logFile s.logFile)
    rw [h.log]
    exact not_clean_calls h.closed fun _ => rfl

/-- The end of the session once more. -/
theorem Stuck.again (h : Stuck s f k) (hz : ∀ th n, (s.pc th).zkClosed = some n → s.zk ≠ some n) : LeadsOn s := by
  let told := moveTo s (.event k) .zookeeperClose
  have htold : told.pc (.event k) = .zookeeperClose := Function.update_self ..
  have hexpire : step s (.expire k) = some told := by
    rw [step_eq h.running, advance, if_pos ⟨h.known, h.idle⟩]
  have hsettled : Settled told := by
    by_contra hne
    simp only [Settled, not_or, not_forall, not_not] at hne
    obtain ⟨hzk, b, -, hb⟩ := hne
    by_cases e : b = k
    · rw [e, htold] at hb
      exact hzk hb.symm
    · change (Function.update s.pc (.event k) _ (.event b)).zkClosed = s.zk at hb
      rw [Function.update_of_ne fun e' => e (Thread.event.inj e')] at hb
      obtain ⟨n, hn⟩ := Option.ne_none_iff_exists'.mp hzk
      exact hz _ n (hb.trans hn) hn
  let closed := moveTo (closeZk told) (.event k) (.fclose told.zk)
  have hclose : step told (.next (.event k) true) = some closed := by
    rw [@step_eq told h.running, advance, nextCall, htold]
  have hclosed : closed.pc (.event k) = .fclose told.zk := Function.update_self ..
  have hfree : LogSettled closed := Or.inr fun b _ e => by
    by_cases eb : b = k
    · rw [eb, hclosed] at e
      exact absurd (e.trans h.log) nofun
    · have hne : Thread.event b ≠ .event k := fun e' => eb (Thread.event.inj e')
      change (Function.update (Function.update s.pc (.event k) _) (.event k) _ (.event b)).logClosed = s.logFile at e
      rw [Function.update_of_ne hne, Function.update_of_ne hne] at e
      exact h.free (.event b) f (e.trans h.log) h.log
  have hfclose : step closed (.next (.event k) true) =
      some (moveTo (closeLog closed) (.event k) (.makeSureDir told.zk closed.logFile)) := by
    rw [@step_eq closed h.running, advance, nextCall, hclosed]
  refine .next (show Sound s (.expire k) from trivial) hexpire (.next ?_ hclose (.next ?_ hfclose ⟨_, .start, ?_⟩))
  · show SoundCall told true (told.pc _)
    rw [htold]
    exact hsettled
  · show SoundCall closed true (closed.pc _)
    rw [hclosed]
    exact hfree
  · show ¬Clean ((s.ops ++ calls .release .zk s.zk) ++ calls .release .logFile s.logFile)
    rw [h.log]
    exact not_clean_calls (List.mem_append_left _ h.closed) fun _ => rfl

/-- Another thread moves on, and leaves the log as it is. -/
theorem Stuck.pass (h : Stuck s f k) (hb : s.pc th ≠ .idle) (hq : q.zkClosed = none ∨ q.zkClosed = (s.pc th).zkClosed)
    (hl : q.logClosed = none ∨ q.logClosed = (s.pc th).logClosed) : Stuck (moveTo s th q) f k := by
  refine ⟨h.running, h.log, h.closed, fun x n hx => ?_, fun x n hx => ?_, h.known, ?_⟩
  · change (Function.update s.pc th q x).logClosed = some n at hx
    by_cases e : x = th
    · rw [e, Function.update_self] at hx
      rcases hl with hl | hl
      · rw [hl] at hx
        cases hx
      · exact h.free th n (hl.symm.trans hx)
    · rw [Function.update_of_ne e] at hx
      exact h.free x n hx
  · change (Function.update s.pc th q x).zkClosed = some n at hx
    by_cases e : x = th
    · rw [e, Function.update_self] at hx
      rcases hq with hq | hq
      · rw [hq] at hx
        cases hx
      · exact h.below th n (hq.symm.trans hx)
    · rw [Function.update_of_ne e] at hx
      exact h.below x n hx
  · have hne : Thread.event k ≠ th := fun e => hb (e ▸ h.idle)
    exact (Function.update_of_ne hne ..).trans h.idle

/-- A thread on its way to `zookeeper_init` gets there, and `zk_h` has an open handle. -/
theorem Stuck.init (h : Stuck s f k) {zk : Option Nat} (hpc : s.pc th = .zookeeperInit zk) : LeadsOn s := by
  have hs : step s (.next th true) = some (moveTo (openZk s) th .zooState) := by
    rw [step_eq h.running, advance, nextCall, hpc]
    rfl
  have hne : s.pc th ≠ .idle := by rw [hpc]; nofun
  have hpass := h.pass (q := .zooState) hne (.inl rfl) (.inl rfl)
  have hthen : Stuck (moveTo (openZk s) th .zooState) f k :=
    ⟨hpass.running, hpass.log, hpass.closed, hpass.free, fun x n hx => Nat.lt_succ_of_lt (hpass.below x n hx),
      Nat.lt_succ_of_lt hpass.known, hpass.idle⟩
  refine .next ?_ hs (hthen.again fun x n hx e => ?_)
  · show SoundCall s true (s.pc th)
    rw [hpc]
    trivial
  · obtain rfl := Option.some.inj e
    exact absurd (hpass.below x _ hx) (Nat.lt_irrefl _)

theorem Stuck.fopen (h : Stuck s f k) {zk log : Option Nat} (hpc : s.pc th = .fopen zk log) : LeadsOn s := by
  have hs : step s (.next th false) = some (moveTo s th (.zookeeperInit zk)) := by
    rw [step_eq h.running, advance, nextCall, hpc]
    rfl
  refine .next ?_ hs ((h.pass (hpc ▸ nofun) (.inr (hpc ▸ rfl)) (.inl rfl)).init (Function.update_self ..))
  show SoundCall s false (s.pc th)
  rw [hpc]
  refine Or.inr (Or.inr fun e => ?_)
  exact h.free th f (by rw [Function.comp_apply, hpc]; exact e.symm.trans h.log) h.log

theorem Stuck.makeSureDir (h : Stuck s f k) {zk log : Option Nat} (hpc : s.pc th = .makeSureDir zk log) :
    LeadsOn s := by
  have hs : step s (.next th true) = some (moveTo s th (.fopen zk log)) := by
    rw [step_eq h.running, advance, nextCall, hpc]
    rfl
  refine .next ?_ hs ((h.pass (hpc ▸ nofun) (.inr (hpc ▸ rfl)) (.inr (hpc ▸ rfl))).fopen (Function.update_self ..))
  show SoundCall s true (s.pc th)
  rw [hpc]
  exact Or.inl rfl

/-- Who has the handle in `zk_h` in hand replaces it, and the next session's end closes the
    stream again. -/
theorem Stuck.leadsOn (h : Stuck s f k) : LeadsOn s := by
  by_cases hz : ∀ th n, (s.pc th).zkClosed = some n → s.zk ≠ some n
  · exact h.again hz
  · push Not at hz
    obtain ⟨th, n, hn, -⟩ := hz
    cases hpc : s.pc th with
    | fclose => exact h.fclose hpc
    | makeSureDir => exact h.makeSureDir hpc
    | fopen => exact h.fopen hpc
    | zookeeperInit => exact h.init hpc
    | idle | zookeeperClose | zooState | existNode =>
      rw [hpc] at hn
      cases hn

/-- Once a thread has dropped the stream it closed, `zk_h` is stuck with it. -/
theorem Inv.stuck (hi : Inv s) (he : s.exited = false) (hclosed : (s.pc (.event k)).logClosed = some f)
    (hlog : s.logFile = some f) : Stuck (moveTo s (.event k) .idle) f k := by
  have hne : s.pc (.event k) ≠ .idle := fun e => by rw [e] at hclosed; cases hclosed
  refine ⟨he, hlog, hi.logFile.hands (.event k) f hclosed, fun x n hx e => ?_, fun x n hx => ?_, ?_,
    Function.update_self ..⟩
  · obtain rfl : f = n := Option.some.inj (hlog.symm.trans e)
    change (Function.update s.pc _ _ x).logClosed = _ at hx
    by_cases ex : x = .event k
    · rw [ex, Function.update_self] at hx
      cases hx
    · rw [Function.update_of_ne ex] at hx
      exact ex (hi.logFile.once x (.event k) f hx hclosed)
  · change (Function.update s.pc _ _ x).zkClosed = _ at hx
    by_cases ex : x = .event k
    · rw [ex, Function.update_self] at hx
      cases hx
    · rw [Function.update_of_ne ex] at hx
      exact hi.zk.below n (hi.zk.hands x n hx)
  · exact Nat.lt_of_not_le fun hk => hi.made hne k hk rfl

/-- `make_sure_dir` fails after `fini_zk_handle`: `zk_h` keeps what is closed. -/
theorem dir_leads_on (hi : Inv s) (he : s.exited = false) {zk logFile : Option Nat}
    (hpc : s.pc th = .makeSureDir zk logFile) (hok : ¬SoundCall s false (.makeSureDir zk logFile)) : LeadsOn (giveUp s th) := by
  simp only [SoundCall, Bool.false_eq_true, false_or, not_and_or, not_or, ne_eq, not_not] at hok
  have hsome : (s.pc th).zkClosed ≠ none ∨ (s.pc th).logClosed ≠ none := by
    rw [hpc]
    exact hok.imp And.left And.left
  obtain ⟨k, rfl, hk⟩ := hi.closer hsome
  have hexit : (giveUp s (.event k)).exited = false := (Bool.or_false _).trans he
  rcases hok with ⟨hz, hzk⟩ | ⟨hl, hlog⟩
  · -- the next `get_children` uses the closed handle
    obtain ⟨n, hn⟩ := Option.ne_none_iff_exists'.mp hz
    have hhand : (s.pc (.event k)).zkClosed = some n := by
      rw [hpc]
      exact hn
    have hsettled : Settled (giveUp s (.event k)) := Or.inr fun b _ e => by
      change (Function.update s.pc _ _ (.event b)).zkClosed = s.zk at e
      rw [hzk, hn] at e
      by_cases eb : Thread.event b = .event k
      · rw [eb, Function.update_self] at e
        cases e
      · rw [Function.update_of_ne eb] at e
        exact eb (hi.zk.once _ _ n e hhand)
    refine .next (show Sound _ .getChildren from hsettled) (step_eq hexit .getChildren) ⟨_, .start, ?_⟩
    show ¬Clean (s.ops ++ calls .use .zk s.zk)
    rw [hzk, hn]
    exact not_clean_calls (hi.zk.hands (.event k) n hhand) fun _ => rfl
  · obtain ⟨n, hn⟩ := Option.ne_none_iff_exists'.mp hl
    have hstuck := hi.stuck he (k := k) (f := n) (by rw [hpc]; exact hn) (hlog.trans hn)
    refine Stuck.leadsOn (f := n) (k := k) ⟨hexit, hstuck.log, hstuck.closed, hstuck.free, hstuck.below, hstuck.known,
      hstuck.idle⟩

/-- `fopen` fails after `fini_zk_handle`: once the thread is done the closed stream is
    still there. -/
theorem fopen_leads_on (hi : Inv s) (he : s.exited = false) {zk logFile : Option Nat}
    (hpc : s.pc th = .fopen zk logFile) (hok : ¬SoundCall s false (.fopen zk logFile)) : LeadsOn (moveTo s th (.zookeeperInit zk)) := by
  simp only [SoundCall, Bool.false_eq_true, false_or, not_or, ne_eq, not_not] at hok
  obtain ⟨hl, hlog⟩ := hok
  have hclosed : (s.pc th).logClosed ≠ none := by rw [hpc]; exact hl
  obtain ⟨k, rfl, hk⟩ := hi.closer (Or.inr hclosed)
  obtain ⟨n, hn⟩ := Option.ne_none_iff_exists'.mp hl
  have hstuck := hi.stuck he (k := k) (f := n) (by rw [hpc]; exact hn) (hlog.trans hn)
  let kept := moveTo s (.event k) (.zookeeperInit zk)
  have hkept : kept.pc (.event k) = .zookeeperInit zk := Function.update_self ..
  -- `zookeeper_init` fails, and the thread is at the next of its watchers
  have hs : step kept (.next (.event k) false) = some (giveUp { kept with zk := none } (.event k)) := by
    rw [@step_eq kept he, advance, nextCall, hkept]
    rfl
  have hpcs : (giveUp { kept with zk := none } (.event k)).pc = (moveTo s (.event k) .idle).pc :=
    Function.update_idem ..
  refine .next ?_ hs (Stuck.leadsOn (f := n) (k := k) ⟨(Bool.or_false _).trans he, hstuck.log, hstuck.closed, ?_, ?_,
    hstuck.known, ?_⟩)
  · show SoundCall kept false (kept.pc _)
    rw [hkept]
    trivial
  · rw [hpcs]
    exact hstuck.free
  · rw [hpcs]
    exact hstuck.below
  · rw [hpcs]
    exact hstuck.idle

theorem unsound_leads_on {a : Label} (hi : Inv s) (hok : ¬Sound s a) (h : step s a = some t) : LeadsOn t := by
  have he := running h
  rw [step_eq he] at h
  cases a with
  | expire => exact (hok trivial).elim
  | getChildren =>
    obtain rfl := Option.some.inj h
    exact ⟨_, .start, zooCall_unsettled hi hok fun _ => rfl⟩
  | next th ok =>
    change ¬SoundCall s ok (s.pc th) at hok
    rw [advance, nextCall] at h
    cases hpc : s.pc th <;> rw [hpc] at h hok <;> simp only [Option.some.injEq] at h
    case idle => cases h
    case zookeeperInit => exact (hok trivial).elim
    case zookeeperClose =>
      subst h
      exact ⟨_, .start, zooCall_unsettled hi hok fun _ => rfl⟩
    case fclose =>
      subst h
      exact ⟨_, .start, hi.logFile.not_clean (fun hfree => hok (hi.logSettled_iff.mpr hfree)) fun _ => rfl⟩
    case makeSureDir =>
      cases ok with
      | true => exact (hok (Or.inl rfl)).elim
      | false =>
        subst h
        exact dir_leads_on hi he hpc hok
    case fopen =>
      cases ok with
      | true => exact (hok (Or.inl rfl)).elim
      | false =>
        subst h
        exact fopen_leads_on hi he hpc hok
    case zooState =>
      subst h
      exact ⟨_, .start, zooCall_unsettled hi hok fun _ => rfl⟩
    case existNode =>
      have hbad := zooCall_unsettled hi hok (f := .use) fun _ => rfl
      split at h
      · subst h; exact ⟨_, .start, hbad⟩
      · subst h; exact ⟨_, .start, hbad⟩

/-- In the runs of sound steps nothing is closed twice or called once it is closed; and
    every other step leads on to that. -/
theorem handles_clean (s : St) (h : Reach step Sound boot s) : Clean s.ops ∧
    ∀ a t, step s a = some t → ¬Sound s a → ∃ u, Reach step Sound t u ∧ ¬Clean u.ops := by
  have hi := inv_reach h
  exact ⟨hi.clean, fun a t hs hok => unsound_leads_on hi hok hs⟩

/-- The calls of a thread, which all succeed. -/
def succeeding (th : Thread) (n : Nat) : List Label := List.replicate n (.next th true)

/-- From the startup to where the first session's end is told again: the second handle is
    closed, and the log about to be opened. -/
def toldTwice : List Label :=
  succeeding .main 5 ++ .expire 0 :: succeeding (.event 0) 7 ++ .getChildren :: .expire 0 :: succeeding (.event 0) 3

theorem handles_clean_sample : ∃ s t, s.ops.length = 9 ∧ Clean s.ops ∧
    step s (.next (.event 0) false) = some t ∧ ∃ u, Reach step Sound t u ∧ ¬Clean u.ops := by
  have hrun : (exec step Sound boot toldTwice).any (fun s => decide (s.ops.length = 9 ∧
      (step s (.next (.event 0) false)).isSome = true ∧ ¬Sound s (.next (.event 0) false))) = true := by decide +kernel
  obtain ⟨s, hreach, hs⟩ := reach_of_exec_any hrun
  have hs := of_decide_eq_true hs
  obtain ⟨hclean, hleads⟩ := handles_clean s hreach
  obtain ⟨t, ht⟩ := Option.isSome_iff_exists.mp hs.2.1
  exact ⟨s, t, hs.1, hclean, ht, hleads _ t ht hs.2.2⟩

/-- After the first session the log file cannot be opened again, but a session is; its end
    closes the first log stream once more. -/
theorem log_closed_twice : ¬∀ s, Reach step (fun _ _ => True) boot s → Clean s.ops := by
  intro hall
  have hrun : (exec step (fun _ _ => True) boot (succeeding .main 5 ++ .expire 0 :: succeeding (.event 0) 3 ++
      .next (.event 0) false :: succeeding (.event 0) 3 ++ .expire 1 :: succeeding (.event 1) 2)).any (fun s =>
        decide (1 < s.ops.count (.release (.logFile 0)))) = true := by decide +kernel
  obtain ⟨s, hreach, hs⟩ := reach_of_exec_any hrun
  exact absurd ((hall s hreach).once (.logFile 0)) (Nat.not_le_of_lt (of_decide_eq_true hs))

end Ddm.Watch.Handle
