import GnuPth.Manager.Epoll
import GnuPth.Manager.Isolation

/-!
# What the kernel watches

A turn of `pth_sched_eventmanager_evport` between the registration cache and the kernel.
-/

namespace GnuPth.Manager

open Evp

theorem Evp.Cache.wanted {p : Call Evp EvpOs} (h : Cache p.req k) : Cache (p.wanted pipe) k := by
  have hrun : ScanRun (evportCore pipe) (fun _ => False) _ _ := scanned_run p.env.leaves_none
  have hbegin : Cache p.req.begin k := h.wantAll [] p.req.begin.force
  have hkeeps : (evportCore pipe).Keeps (Cache · k) :=
    evportCore_keeps pipe fun fd mask h => h.want fd mask
  have hwant := (hrun.req hkeeps hbegin).want pipe ⟨true, false, false⟩
  unfold Call.wanted Evp.wanted heartbeat
  split
  · exact hwant.of_reg rfl le_rfl fun _ => .inl ⟨rfl, rfl⟩
  · exact hwant

/-- After the commit of every turn, forced or not, the kernel holds only what is wanted
in it, open and with its mask; the pipe is always wanted. The turn keeps the invariant. -/
theorem turn_watches_wanted (pipe : Fd) (p : Call Evp EvpOs) (k : Kernel) (hs : p.req.Sane)
    (hc : p.req.Cache k) (hos : p.os.ctl = fun op fd _ => k.ctlError op fd) :
    let q := p.wanted pipe
    let c := q.commitIn k
    p.committed pipe = c.1 ∧ pipe ∈ q.touched ∧
    (∀ fd m, c.2.interest fd = some m →
      fd ∈ q.touched ∧ m = (q.reg fd).want ∧ c.2.isOpen fd = true) ∧
    (p.pass (evportCore pipe)).req.Sane ∧ (p.pass (evportCore pipe)).req.Cache c.2 := by
  intro q c
  have ht : q.Tracks := wanted_tracks hs
  obtain ⟨hcache, hlist, -⟩ := (hc.wanted : Cache q k).commit ht
  have hcommit : p.committed pipe = c.1 := by
    rw [commitIn_commit k p.os ht.nodup, ← hos]
    rfl
  refine ⟨hcommit, ?_, fun fd m hm => ?_, pass_sane hs, ?_⟩
  · rw [ht.touched]
    unfold q Call.wanted Evp.wanted heartbeat
    split <;> exact (stamped_want _ pipe _).2
  · obtain ⟨hreg, hmask, hopen⟩ := hcache.known fd m hm
    obtain ⟨hm, -, hwant⟩ := hlist fd ((hcache.listed fd).mpr hreg)
    exact ⟨hm, hmask.symm.trans hwant, hopen⟩
  · rw [pass_req, late_evp, hcommit]
    exact hcache.evpWait p.os _

def freshKernel : Kernel := ⟨fun _ => true, fun _ => none⟩

theorem turn_watches_wanted_fresh :
    let p := evpBeside [1] ⟨fun op fd _ => freshKernel.ctlError op fd, true, some []⟩
    9 ∈ (p.wanted 9).touched ∧ (p.pass (evportCore 9)).req.Sane :=
  have h := turn_watches_wanted 9 _ freshKernel (sane_init 0) (Reach.init fun _ => true).sound.2 rfl
  ⟨h.2.1, h.2.2.2.1⟩

end GnuPth.Manager
