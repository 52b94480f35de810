import GnuPth.Manager.Cores

/-!
# The event port

`pth_sched_eventmanager_evport` over epoll(7). The descriptors that the kernel
holds are kept in a cache that is compared with the waiting queue in each pass;
what was reported in a pass is stamped with the generation of the pass.
Reallocating the cache and its two lists always succeeds here.
-/

namespace GnuPth.Manager

open Function (update)

/-- `struct pth_evreg_st` -/
structure Evreg where
  gen : Nat
  rdygen : Nat
  want : Bits
  regmask : Bits
  ready : Reply
  registered : Bool
  deriving DecidableEq, Repr

def Evreg.new : Evreg := ⟨0, 0, .zero, .zero, .none, false⟩

/-- The event port of a scheduler. `waited` is a history: the timeout that the
wait call of the pass got, if it was called. -/
structure Evp where
  reg : Fd → Evreg
  regcap : Nat
  gen : Nat
  touched : List Fd
  reglist : List Fd
  force : Bool
  evcap : Nat
  revalMs : Int
  nextreval : Timeval
  waited : Option Int

inductive CtlOp
  | add
  | mod
  deriving DecidableEq, Repr

inductive CtlErrno
  | EEXIST
  | ENOENT
  | other
  deriving DecidableEq, Repr

structure EpollEvents where
  epollin : Bool
  epollout : Bool
  epollpri : Bool
  epollerr : Bool
  epollhup : Bool
  deriving DecidableEq, Repr

/-- What the OS does in a turn: how each epoll_ctl(2) ends, whether there is
memory for more results, and what epoll_wait(2) reports, or its error. -/
structure EvpOs where
  ctl : CtlOp → Fd → Bits → Option CtlErrno
  realloc : Bool
  wait : Option (List (Fd × EpollEvents))

def grown (cap need : Nat) : Nat :=
  (List.range need).foldl (fun c _ => if c < need then 2 * c else c) cap

/-- `pth_evp_from_epoll` -/
def evpFromEpoll (ev : EpollEvents) : Reply where
  bits :=
    { r := ev.epollin || ev.epollhup || ev.epollerr
      w := ev.epollout || ev.epollhup || ev.epollerr
      e := ev.epollpri }
  fail := false

/-- `PTH_EVP_FAIL` alone -/
def evpFail : Reply := ⟨.zero, true⟩

namespace Evp

/-- `pth_evp_init`, with the heartbeat from the environment. -/
def init (revalMs : Int) : Evp where
  reg _ := .new
  regcap := 0
  gen := 0
  touched := []
  reglist := []
  force := false
  evcap := 0
  revalMs := revalMs
  nextreval := ⟨0, 0⟩
  waited := none

variable (q : Evp)

def setReg (fd : Fd) (r : Evreg) : Evp := { q with reg := update q.reg fd r }

/-- `pth_evp_grow_reg` -/
def growReg (fd : Fd) : Evp :=
  if fd < q.regcap then q
  else
    let nc := grown (if q.regcap = 0 then 64 else q.regcap) (fd + 1)
    { q with
      reg := fun i => if q.regcap ≤ i ∧ i < nc then .new else q.reg i
      regcap := nc }

/-- `pth_evp_begin` -/
def begin : Evp :=
  let q := { q with gen := (q.gen + 1) % 2 ^ 32, touched := [], force := false, waited := none }
  if q.gen = 0 then
    { q with
      reg := fun i => if i < q.regcap then { q.reg i with gen := 0, rdygen := 0 } else q.reg i
      gen := 1 }
  else q

/-- `pth_evp_want` -/
def want (fd : Fd) (mask : Bits) : Evp :=
  let q := q.growReg fd
  let r := q.reg fd
  if r.gen ≠ q.gen then
    { q.setReg fd { r with gen := q.gen, want := mask } with touched := q.touched ++ [fd] }
  else q.setReg fd { r with want := r.want.or mask }

/-- `pth_evp_ready` -/
def ready (fd : Fd) : Reply :=
  if fd < q.regcap ∧ (q.reg fd).rdygen = q.gen then (q.reg fd).ready else .none

def wantSelect (mem : Mem) (a : SelectArgs) : Evp :=
  (List.range a.nfd).foldl
    (fun q fd => if (a.bits mem fd).any then q.want fd (a.bits mem fd) else q) q

/-! ### pth_evp_commit -/

def register (fd : Fd) : Evp :=
  { q.setReg fd { q.reg fd with registered := true, regmask := (q.reg fd).want } with
    reglist := q.reglist ++ [fd] }

def flag (fd : Fd) : Evp := q.setReg fd { q.reg fd with ready := evpFail, rdygen := q.gen }

def drop (fd : Fd) : Evp :=
  q.setReg fd
    { q.reg fd with registered := false, regmask := .zero, ready := evpFail, rdygen := q.gen }

def remask (fd : Fd) : Evp := q.setReg fd { q.reg fd with regmask := (q.reg fd).want }

/-- `pth_evp_ctl` -/
def ctl (os : EvpOs) (fd : Fd) : Evp :=
  let r := q.reg fd
  if !r.registered then
    match os.ctl .add fd r.want with
    | none => q.register fd
    | some .EEXIST =>
      -- the failure of the second call is not reported to anyone
      match os.ctl .mod fd r.want with
      | none => q.register fd
      | some _ => q
    | some _ => q.flag fd
  else if r.regmask ≠ r.want ∨ q.force then
    match os.ctl .mod fd r.want with
    | none => q.remask fd
    | some .ENOENT =>
      match os.ctl .add fd r.want with
      | none => q.remask fd
      | some _ => q.drop fd
    | some _ => q.drop fd
  else q

/-- One round of the loop over `evp_reglist`, at index `c.1`. -/
def pruneStep (c : Nat × Evp) : Nat × Evp :=
  let (i, q) := c
  match q.reglist[i]? with
  | none => c
  | some fd =>
    let r := q.reg fd
    if r.gen ≠ q.gen ∨ !r.registered then
      -- the last of the list takes the place of this one
      let last := q.reglist.getLastD fd
      (i, { q.setReg fd { r with registered := false, regmask := .zero } with
            reglist := (q.reglist.set i last).dropLast })
    else (i + 1, q)

/-- Each round drops a member or goes past one. -/
def prune : Evp := ((List.range q.reglist.length).foldl (fun c _ => pruneStep c) (0, q)).2

/-- `pth_evp_commit` -/
def commit (os : EvpOs) : Evp := (q.touched.foldl (fun q fd => q.ctl os fd) q).prune

/-! ### pth_evp_wait -/

def report (ev : Fd × EpollEvents) : Evp :=
  if ev.1 < q.regcap then
    q.setReg ev.1 { q.reg ev.1 with ready := evpFromEpoll ev.2, rdygen := q.gen }
  else q

def growEvs (os : EvpOs) : Evp :=
  if q.reglist.length + 1 > q.evcap ∧ os.realloc then
    { q with evcap := grown (if q.evcap = 0 then 64 else q.evcap) (q.reglist.length + 1) }
  else q

/-- `pth_evp_wait`; without a buffer it does not wait. -/
def evpWait (os : EvpOs) (timeout : Int) : Evp × Int :=
  let q := q.growEvs os
  if q.evcap = 0 then (q, 0)
  else
    let q := { q with waited := some timeout }
    match os.wait with
    | some evs => (evs.foldl report q, evs.length)
    | none => (q, -1)

/-! ### In the event manager -/

/-- The revalidation heartbeat is due: all registrations are asserted again. -/
def heartbeat (now : Timeval) : Evp :=
  if q.revalMs > 0 ∧ timeCmp now q.nextreval ≥ 0 then
    { q with
      force := true
      nextreval := timeAdd now ⟨q.revalMs.tdiv 1000, q.revalMs.tmod 1000 * 1000⟩ }
  else q

/-- `ptimeout`, in milliseconds; negative is to block. It is decided from `dopoll`
and the timers alone. -/
def ptimeout (dopoll : Bool) (delay : Option Timeval) : Int :=
  let ms :=
    if dopoll then 0
    else match delay with
      | some d => Sched.pollTimeout d
      | none => -1
  if q.revalMs > 0 ∧ (ms < 0 ∨ ms > q.revalMs) then q.revalMs else ms

def wanted (pipe : Fd) (now : Timeval) : Evp := (q.want pipe ⟨true, false, false⟩).heartbeat now

def wait (pipe : Fd) (os : EvpOs) (now : Timeval) (dopoll : Bool) (delay : Option Timeval) :
    Evp × Int :=
  let q := (q.wanted pipe now).commit os
  q.evpWait os (q.ptimeout dopoll delay)

end Evp

def evportCore (pipe : Fd) : Core Evp EvpOs where
  clear := Evp.begin
  wantFd := Evp.want
  wantSelect := Evp.wantSelect
  wait os q now dopoll delay := q.wait pipe os now dopoll delay
  adjust q dopoll rc := (q, if !dopoll ∧ rc > 0 ∧ (q.ready pipe).bits.r then rc - 1 else rc)
  lateFd _ _ q fd goal := (q, replyFd (q.ready fd) goal)
  lateSelect _ _ q mem a := (q, replySelect q.ready mem a)

end GnuPth.Manager
