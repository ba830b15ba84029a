import Sylar.Hook.Step

/-! # Whose file a hooked call acts on

A call of `do_io` names its file by the descriptor. The kernel may give the descriptor to
another file after a `close`, and nothing tells the call: `close` wakes the waiter without a
mark in `timer_info`, and `m_isClosed` is never set. The call stays with its own file as long as
no number is given away while a call on it has a system call left to issue.
-/

namespace Sylar.Hook

open Transition Epoll

variable {n : Nat}

/-! ## Calls that are not over -/

/-- The call has a system call left to issue, unless it times out before. -/
def Call.mayIssue (call : Call) (queued : Bool) : Bool :=
  match call.pc with
  | .suspended => queued && !call.cancelled
  | .resumed => !call.cancelled
  | _ => true

/-- The fiber is in such a call on `fd`. -/
def System.uses (s : System n) (f : Fin n) (fd : Nat) : Bool :=
  match s.fibers f with
  | .io call => decide (call.fd = fd) && call.mayIssue (s.queued f)
  | _ => false

/-- `socket` and `accept` are given a number only while no call on it has a system call left. -/
def Unshared (s : System n) : Action n → Prop
  | .socket _ fd => ∀ f, s.uses f fd = false
  | .issue _ (.accepted fd) => ∀ f, s.uses f fd = false
  | _ => True

instance (s : System n) (a : Action n) : Decidable (Unshared s a) := by
  unfold Unshared
  split <;> infer_instance

/-! ## The invariant -/

/-- A fiber in the events of a descriptor is suspended in its call there, not queued, and
on its own file as long as the kernel knows the registration; a call with a system call left
finds its own file or none. -/
structure Attached (s : System n) : Prop where
  coherent : Coherent s.iom
  closed : ∀ fd, s.files fd = none → s.iom.interest fd = none
  waiting : ∀ fd e f, s.iom.fiberAt fd e = some f → ∃ (g : Fin n) (call : Call), (g : Nat) = f ∧
    s.fibers g = .io call ∧ call.pc = .suspended ∧ call.fd = fd ∧ call.event = e ∧
    s.queued g = false ∧ (s.iom.interest fd ≠ none → s.files fd = call.began)
  queued : ∀ g, s.queued g = true → ∃ call, s.fibers g = .io call ∧ call.pc = .suspended
  own : ∀ g call, s.fibers g = .io call → call.mayIssue (s.queued g) = true →
    s.files call.fd = call.began ∨ s.files call.fd = none
  issued : ∀ x ∈ s.issued, x.target = x.began ∨ x.target = none

theorem Call.event_ne_none (call : Call) : call.event ≠ .none := by
  unfold Call.event
  split <;> nofun

theorem attached_init (n : Nat) : Attached (.init n) where
  coherent := coherent_init
  closed := fun _ _ => rfl
  waiting := fun fd e f hf => by
    rw [show (System.init n).iom = .init from rfl, fiberAt_init] at hf
    cases hf
  queued := nofun
  own := nofun
  issued := nofun

variable {s s' : System n}

theorem Call.mayIssue_of_active {call : Call} (hpc : call.pc ≠ .suspended) (q r : Bool) :
    call.mayIssue q = call.mayIssue r := by
  unfold Call.mayIssue
  split
  · rename_i hs
    exact (hpc hs).elim
  · rfl
  · rfl

/-! ## Steps of a fiber -/

/-- A fiber that is not suspended goes on, in no call or in one that finds its own file. -/
theorem Attached.go (h : Attached s) {g : Fin n} {x : Activity}
    (hs' : s' = { s' with
      fibers := Function.update s.fibers g x
      iom := s.iom
      files := s.files
      queued := s.queued })
    (hold : ∀ call, s.fibers g = .io call → call.pc ≠ .suspended)
    (hnew : ∀ call, x = .io call → call.pc ≠ .suspended ∧ (call.mayIssue false = true →
      s.files call.fd = call.began ∨ s.files call.fd = none))
    (hissued : ∀ y ∈ s'.issued, y.target = y.began ∨ y.target = none) : Attached s' := by
  have hfibers : s'.fibers = Function.update s.fibers g x := by rw [hs']
  have hiom : s'.iom = s.iom := by rw [hs']
  have hfiles : s'.files = s.files := by rw [hs']
  have hqueued : s'.queued = s.queued := by rw [hs']
  refine ⟨hiom ▸ h.coherent, hiom ▸ hfiles ▸ h.closed, fun fd e f hf => ?_, fun k hk => ?_,
    fun k call hcall hmay => ?_, hissued⟩
  -- the waiter of an event
  · rw [hiom] at hf ⊢
    obtain ⟨k, call, hk, hcall, hpc, hrest⟩ := h.waiting fd e f hf
    have hkg : k ≠ g := by
      rintro rfl
      exact hold call hcall hpc
    rw [hfiles, hqueued]
    exact ⟨k, call, hk, by rwa [hfibers, Function.update_of_ne hkg], hpc, hrest⟩
  -- a queued fiber
  · rw [hqueued] at hk
    obtain ⟨call, hcall, hpc⟩ := h.queued k hk
    have hkg : k ≠ g := by
      rintro rfl
      exact hold call hcall hpc
    exact ⟨call, by rwa [hfibers, Function.update_of_ne hkg], hpc⟩
  -- the file of a call
  · rw [hfiles]
    rw [hfibers] at hcall
    by_cases hkg : k = g
    · rw [hkg, Function.update_self] at hcall
      obtain ⟨hpc, hown⟩ := hnew call hcall
      exact hown (Call.mayIssue_of_active hpc _ _ ▸ hmay)
    · rw [Function.update_of_ne hkg] at hcall
      rw [hqueued] at hmay
      exact h.own k call hcall hmay

/-- The same fiber and call, at another place where it is not suspended. -/
theorem Attached.goto (h : Attached s) {g : Fin n} {call call' : Call}
    (hs' : s' = { s' with
      fibers := Function.update s.fibers g (.io call')
      iom := s.iom
      files := s.files
      queued := s.queued })
    (hcall : s.fibers g = .io call) (hpc : call.pc ≠ .suspended) (hpc' : call'.pc ≠ .suspended)
    (hfd : call'.fd = call.fd) (hbegan : call'.began = call.began)
    (hmay : call'.mayIssue false = true → call.mayIssue false = true)
    (hissued : ∀ y ∈ s'.issued, y.target = y.began ∨ y.target = none) : Attached s' := by
  refine h.go hs' (fun c hc => ?_) (fun c hc => ?_) hissued
  · cases hcall.symm.trans hc
    exact hpc
  · cases hc
    refine ⟨hpc', fun hm => ?_⟩
    rw [hfd, hbegan]
    exact h.own g call hcall (Call.mayIssue_of_active hpc _ _ ▸ hmay hm)

theorem Attached.leave (h : Attached s) {g : Fin n} {x : Activity}
    (hs' : s' = { s' with
      fibers := Function.update s.fibers g x
      iom := s.iom
      files := s.files
      queued := s.queued })
    (hold : ∀ call, s.fibers g = .io call → call.pc ≠ .suspended) (hx : ∀ call, x ≠ .io call)
    (hissued : ∀ y ∈ s'.issued, y.target = y.began ∨ y.target = none) : Attached s' :=
  h.go hs' hold (fun call hc => (hx call hc).elim) hissued

theorem Attached.recorded (h : Attached s) {g : Fin n} {call : Call}
    (hcall : s.fibers g = .io call) (hmay : call.mayIssue (s.queued g) = true) :
    ∀ y ∈ (s.record call).issued, y.target = y.began ∨ y.target = none := by
  intro y hy
  rcases List.mem_append.mp hy with hy | hy
  · exact h.issued y hy
  · rw [List.mem_singleton.mp hy]
    exact h.own g call hcall hmay

theorem not_io {g : Fin n} {x : Activity} (hg : s.fibers g = x) (hx : ∀ call, x ≠ .io call) :
    ∀ call, s.fibers g = .io call → call.pc ≠ .suspended :=
  fun call hcall => (hx call (hg.symm.trans hcall)).elim

theorem active {g : Fin n} {call : Call} (hg : s.fibers g = .io call)
    (hpc : call.pc ≠ .suspended) : ∀ c, s.fibers g = .io c → c.pc ≠ .suspended := by
  intro c hc
  cases hg.symm.trans hc
  exact hpc

/-! ## Steps of the kernel and of the events -/

/-- A number is given to a new file while no call on it has a system call left. -/
theorem Attached.openFile (h : Attached s) {fd : Nat} (hfree : s.files fd = none)
    (hunshared : ∀ g, s.uses g fd = false) : Attached (s.openFile fd) where
  coherent := h.coherent
  closed := fun k hk => by
    have hne : k ≠ fd := by
      rintro rfl
      simp [System.openFile] at hk
    refine h.closed k ?_
    simpa [System.openFile, Function.update_of_ne hne] using hk
  waiting := fun k e f hf => by
    obtain ⟨g, call, hg, hcall, hpc, hfd, he, hq, hbegan⟩ := h.waiting k e f hf
    refine ⟨g, call, hg, hcall, hpc, hfd, he, hq, fun hknown => ?_⟩
    have hne : k ≠ fd := by
      rintro rfl
      exact hknown (h.closed k hfree)
    simpa [System.openFile, Function.update_of_ne hne] using hbegan hknown
  queued := h.queued
  own := fun g call hcall hmay => by
    have hne : call.fd ≠ fd := by
      intro hfd
      have hold : s.fibers g = .io call := hcall
      have huses := hunshared g
      simp only [System.uses, hold, hfd, decide_true, Bool.true_and] at huses
      exact Bool.false_ne_true (huses.symm.trans hmay)
    simpa [System.openFile, Function.update_of_ne hne] using h.own g call hcall hmay
  issued := h.issued

theorem Attached.closeFile (h : Attached s) (fd : Nat) : Attached (s.closeFile fd) where
  coherent := h.coherent
  closed := fun k hk => by
    by_cases hkfd : k = fd
    · simp [System.closeFile, IOManager.closeFd, hkfd]
    · simp only [System.closeFile, IOManager.closeFd, Function.update_of_ne hkfd] at hk ⊢
      exact h.closed k hk
  waiting := fun k e f hf => by
    obtain ⟨g, call, hg, hcall, hpc, hfd, he, hq, hbegan⟩ := h.waiting k e f hf
    refine ⟨g, call, hg, hcall, hpc, hfd, he, hq, fun hknown => ?_⟩
    by_cases hkfd : k = fd
    · simp [System.closeFile, IOManager.closeFd, hkfd] at hknown
    · simp only [System.closeFile, IOManager.closeFd, Function.update_of_ne hkfd] at hknown ⊢
      exact hbegan hknown
  queued := h.queued
  own := fun g call hcall hmay => by
    by_cases hfd : call.fd = fd
    · exact .inr (by simp [System.closeFile, hfd])
    · simpa [System.closeFile, Function.update_of_ne hfd] using h.own g call hcall hmay
  issued := h.issued

/-- A fiber that an operation on the events queues was waiting on its own file. -/
theorem Attached.afterEvents (h : Attached s) {iom : IOManager} {fd : Nat}
    (hrel : Releases s.iom iom fd) : Attached (s.afterEvents iom) := by
  obtain ⟨new, hnew, hfrom⟩ := hrel.scheduled
  have hdrop : iom.scheduled.drop s.iom.scheduled.length = new := by
    rw [hnew, List.drop_left]
  have hqueued : ∀ g, (s.afterEvents iom).queued g = true → s.queued g = true ∨
      s.iom.interest fd ≠ none ∧
        ∃ e, s.iom.fiberAt fd e = some (g : Nat) ∧ iom.fiberAt fd e = none := by
    intro g hg
    simp only [System.afterEvents, hdrop, Bool.or_eq_true, List.any_eq_true,
      decide_eq_true_iff] at hg
    rcases hg with hg | ⟨x, hx, hxg⟩
    · exact .inl hg
    · exact .inr (hfrom x hx g hxg)
  refine ⟨hrel.coherent, fun k hk => hrel.interest k (h.closed k hk), fun k e f hf => ?_,
    fun g hg => ?_, fun g call hcall hmay => ?_, h.issued⟩
  · obtain ⟨g, call, hg, hcall, hpc, hfd, he, hq, hbegan⟩ := h.waiting k e f (hrel.fibers k e f hf)
    refine ⟨g, call, hg, hcall, hpc, hfd, he, ?_, fun hknown => hbegan fun hnone =>
      hknown (hrel.interest k hnone)⟩
    by_contra hqueue
    rcases hqueued g (Bool.eq_true_of_not_eq_false hqueue) with hold | ⟨_, e', he', hgone⟩
    · rw [hq] at hold
      cases hold
    · -- the fiber waits in one place only
      obtain ⟨g', call', hg', hcall', _, hfd', hev', _⟩ := h.waiting fd e' g he'
      have hsame : g' = g := Fin.ext hg'
      rw [hsame, hcall] at hcall'
      cases hcall'
      rw [← hfd', hfd, ← hev', he] at hgone
      cases hgone.symm.trans hf
  · rcases hqueued g hg with hold | ⟨_, e, he, _⟩
    · exact h.queued g hold
    · obtain ⟨g', call, hg', hcall, hpc, _⟩ := h.waiting fd e g he
      rw [show g' = g from Fin.ext hg'] at hcall
      exact ⟨call, hcall, hpc⟩
  · by_cases hq : (s.afterEvents iom).queued g = true
    · rcases hqueued g hq with hold | ⟨hknown, e, he, _⟩
      · have heq : s.queued g = (s.afterEvents iom).queued g := hold.trans hq.symm
        exact h.own g call hcall (heq ▸ hmay)
      · obtain ⟨g', call', hg', hcall', _, hfd, _, _, hbegan⟩ := h.waiting fd e g he
        rw [show g' = g from Fin.ext hg'] at hcall'
        cases (show s.fibers g = .io call from hcall).symm.trans hcall'
        exact .inl (by rw [hfd]; exact hbegan hknown)
    · have hold : s.queued g = false := by
        have hfalse := Bool.eq_false_iff.mpr hq
        simp only [System.afterEvents, Bool.or_eq_false_iff] at hfalse
        exact hfalse.1
      rw [Bool.eq_false_iff.mpr hq, ← hold] at hmay
      exact h.own g call hcall hmay

theorem Attached.resume (h : Attached s) {g : Fin n} {call : Call} (hcall : s.fibers g = .io call)
    (hpc : call.pc = .suspended) (hq : s.queued g = true) :
    Attached ({ s with queued := Function.update s.queued g false }.ioAt g call .resumed) where
  coherent := h.coherent
  closed := h.closed
  waiting := fun fd e f hf => by
    obtain ⟨k, c, hk, hc, hrest⟩ := h.waiting fd e f hf
    have hkg : k ≠ g := by
      rintro rfl
      rw [hq] at hrest
      cases hrest.2.2.2.1
    refine ⟨k, c, hk, ?_, hrest.1, hrest.2.1, hrest.2.2.1, ?_, hrest.2.2.2.2⟩
    · simpa [System.ioAt, System.become, Function.update_of_ne hkg] using hc
    · simpa [System.ioAt, System.become, Function.update_of_ne hkg] using hrest.2.2.2.1
  queued := fun k hk => by
    have hkg : k ≠ g := by
      rintro rfl
      simp [System.ioAt, System.become] at hk
    simp only [System.ioAt, System.become, Function.update_of_ne hkg] at hk ⊢
    exact h.queued k hk
  own := fun k c hc hmay => by
    by_cases hkg : k = g
    · subst hkg
      simp only [System.ioAt, System.become, Function.update_self, Activity.io.injEq] at hc
      subst hc
      refine h.own k call hcall ?_
      simpa [Call.mayIssue, hpc, hq] using hmay
    · simp only [System.ioAt, System.become, Function.update_of_ne hkg] at hc hmay ⊢
      exact h.own k c hc hmay
  issued := h.issued

/-- The callback of a condition timer only takes system calls away. -/
theorem Attached.timeout (h : Attached s) {g : Fin n} {call : Call}
    (hcall : s.fibers g = .io call) :
    Attached (s.become g (.io { call with cancelled := true })) where
  coherent := h.coherent
  closed := h.closed
  waiting := fun fd e f hf => by
    obtain ⟨k, c, hk, hc, hrest⟩ := h.waiting fd e f hf
    by_cases hkg : k = g
    · subst hkg
      cases hcall.symm.trans hc
      exact ⟨k, { call with cancelled := true }, hk, by simp [System.become], hrest⟩
    · exact ⟨k, c, hk, by simpa [System.become, Function.update_of_ne hkg] using hc, hrest⟩
  queued := fun k hk => by
    obtain ⟨c, hc, hpc⟩ := h.queued k hk
    by_cases hkg : k = g
    · subst hkg
      cases hcall.symm.trans hc
      exact ⟨{ call with cancelled := true }, by simp [System.become], hpc⟩
    · exact ⟨c, by simpa [System.become, Function.update_of_ne hkg] using hc, hpc⟩
  own := fun k c hc hmay => by
    by_cases hkg : k = g
    · subst hkg
      simp only [System.become, Function.update_self, Activity.io.injEq] at hc
      subst hc
      refine h.own k call hcall ?_
      cases hpc : call.pc <;> simp [Call.mayIssue, hpc] at hmay ⊢
    · simp only [System.become, Function.update_of_ne hkg] at hc
      exact h.own k c hc hmay
  issued := h.issued

theorem Attached.not_queued (h : Attached s) {g : Fin n} {call : Call}
    (hcall : s.fibers g = .io call) (hpc : call.pc ≠ .suspended) : s.queued g = false := by
  by_contra hq
  obtain ⟨c, hc, hcpc⟩ := h.queued g (Bool.eq_true_of_not_eq_false hq)
  cases hcall.symm.trans hc
  exact hpc hcpc

theorem Attached.suspend (h : Attached s) {g : Fin n} {call : Call} {iom : IOManager}
    (hcall : s.fibers g = .io call) (hpc : call.pc ≠ .suspended)
    (hreg : Registers s.iom iom call.fd call.event g) (hbegan : s.files call.fd = call.began)
    (hopen : s.files call.fd ≠ none) : Attached ({ s with iom := iom }.ioAt g call .suspended) where
  coherent := hreg.coherent
  closed := fun k hk => by
    have hne : k ≠ call.fd := by
      rintro rfl
      exact hopen hk
    exact (hreg.interest k hne).trans (h.closed k hk)
  waiting := fun k e f hf => by
    rcases hreg.fibers k e f hf with ⟨rfl, rfl, rfl⟩ | hold
    · exact ⟨g, { call with pc := .suspended }, rfl, Function.update_self _ _ _, rfl, rfl, rfl,
        h.not_queued hcall hpc, fun _ => hbegan⟩
    · obtain ⟨j, c, hj, hc, hcpc, hfd, he, hq, hfile⟩ := h.waiting k e f hold
      have hjg : j ≠ g := by
        rintro rfl
        cases hcall.symm.trans hc
        exact hpc hcpc
      refine ⟨j, c, hj, (Function.update_of_ne hjg _ _).trans hc, hcpc, hfd, he, hq,
        fun hknown => hfile fun hnone => ?_⟩
      -- the kernel knew no registration on `call.fd` before
      by_cases hk : k = call.fd
      · subst hk
        rw [hreg.fresh hnone hknown e] at hold
        cases hold
      · exact hknown ((hreg.interest k hk).trans hnone)
  queued := fun k hk => by
    have hkg : k ≠ g := by
      rintro rfl
      cases (h.not_queued hcall hpc).symm.trans hk
    obtain ⟨c, hc, hcpc⟩ := h.queued k hk
    exact ⟨c, (Function.update_of_ne hkg _ _).trans hc, hcpc⟩
  own := fun k c hc hm => by
    by_cases hkg : k = g
    · subst hkg
      simp only [System.ioAt, System.become, Function.update_self, Activity.io.injEq] at hc
      subst hc
      change (s.queued k && !call.cancelled) = true at hm
      rw [h.not_queued hcall hpc] at hm
      cases hm
    · simp only [System.ioAt, System.become, Function.update_of_ne hkg] at hc
      exact h.own k c hc hm
  issued := h.issued

/-- An `addEvent` that fails has added contexts at most. -/
theorem Attached.grown (h : Attached s) {iom : IOManager} (hcoherent : Coherent iom)
    (hfibers : ∀ k e, iom.fiberAt k e = s.iom.fiberAt k e)
    (hinterest : iom.interest = s.iom.interest) : Attached { s with iom := iom } where
  coherent := hcoherent
  closed := fun k hk => (congrFun hinterest k).trans (h.closed k hk)
  waiting := fun k e f hf => by
    obtain ⟨j, c, hj, hc, hpc, hfd, he, hq, hfile⟩ :=
      h.waiting k e f ((hfibers k e).symm.trans hf)
    exact ⟨j, c, hj, hc, hpc, hfd, he, hq, fun hknown =>
      hfile fun hnone => hknown ((congrFun hinterest k).trans hnone)⟩
  queued := h.queued
  own := h.own
  issued := h.issued

/-- `addEvent` registers the call with the file it began with. -/
theorem Attached.register (h : Attached s) {g : Fin n} {call : Call} {granted : Bool}
    (hcall : s.fibers g = .io call) (hpc : call.pc = .register)
    (hr : s.register g call granted = .ok s') : Attached s' := by
  have hactive : call.pc ≠ .suspended := by rw [hpc]; nofun
  have hmay : call.mayIssue (s.queued g) = true := by rw [Call.mayIssue, hpc]
  have hrecorded := h.recorded hcall hmay
  have hrecord : Attached (s.record call) :=
    ⟨h.coherent, h.closed, h.waiting, h.queued, h.own, hrecorded⟩
  unfold System.register at hr
  split at hr
  · cases hr
  · rename_i rt iom hadd
    obtain ⟨hreg, hfailed, hgranted⟩ := h.coherent.addEvent call.event_ne_none hadd
    cases hr
    by_cases hrt : rt = 0
    · rw [if_pos hrt]
      have hopen : s.files call.fd ≠ none := by
        have hg := hgranted hrt
        rw [Bool.and_eq_true] at hg
        exact Option.isSome_iff_ne_none.mp hg.2
      have hbegan := (h.own g call hcall hmay).resolve_right hopen
      exact hrecord.suspend hcall hactive hreg hbegan hopen
    · rw [if_neg hrt]
      obtain ⟨hfibers, hinterest⟩ := hfailed hrt
      exact (hrecord.grown hreg.coherent hfibers hinterest).leave rfl (active hcall hactive) nofun
        hrecorded

theorem Attached.changeCtx (h : Attached s) (fd : Nat) (change : FdCtx → FdCtx) :
    Attached (s.changeCtx fd change) := by
  unfold System.changeCtx
  split
  · exact ⟨h.coherent, h.closed, h.waiting, h.queued, h.own, h.issued⟩
  · exact h

theorem Attached.ioStep (h : Attached s) {g : Fin n} {call : Call}
    (hcall : s.fibers g = .io call) (hr : s.ioStep g call = some s') : Attached s' := by
  cases hpc : call.pc <;> simp only [System.ioStep, hpc] at hr
  case get =>
    split at hr <;> cases hr
    · exact h.goto rfl hcall (by rw [hpc]; nofun) (by simp) rfl rfl
        (fun _ => by rw [Call.mayIssue, hpc]) h.issued
    · exact h.goto rfl hcall (by rw [hpc]; nofun) (by simp) rfl rfl
        (fun _ => by rw [Call.mayIssue, hpc]) h.issued
  case test ctx =>
    cases hr
    unfold System.testCtx
    split
    · exact h.leave rfl (active hcall (by rw [hpc]; nofun)) nofun h.issued
    · split
      · exact h.goto rfl hcall (by rw [hpc]; nofun) (by simp) rfl rfl
          (fun _ => by rw [Call.mayIssue, hpc]) h.issued
      · exact h.goto rfl hcall (by rw [hpc]; nofun) (by simp) rfl rfl
          (fun _ => by rw [Call.mayIssue, hpc]) h.issued
  case arm =>
    cases hr
    exact h.goto rfl hcall (by rw [hpc]; nofun) (by simp) rfl rfl
      (fun _ => by rw [Call.mayIssue, hpc]) h.issued
  case resumed =>
    cases hr
    split
    · exact h.leave rfl (active hcall (by rw [hpc]; nofun)) nofun h.issued
    · rename_i hcancelled
      exact h.goto rfl hcall (by rw [hpc]; nofun) (by simp) rfl rfl
        (fun _ => by simpa [Call.mayIssue, hpc] using hcancelled) h.issued
  all_goals cases hr

theorem Attached.closeStep (h : Attached s) {g : Fin n} {fd : Nat} {pc : ClosePc}
    (hg : s.fibers g = .closing fd pc) (hr : s.closeStep g fd pc = some s') : Attached s' := by
  have hold := not_io hg nofun
  cases pc with
  | get =>
      simp only [System.closeStep] at hr
      split at hr <;> cases hr <;> exact h.leave rfl hold nofun h.issued
  | cancelAll => cases hr
  | del =>
      cases hr
      exact h.leave rfl hold nofun h.issued
  | close =>
      cases hr
      exact (h.closeFile fd).leave rfl (not_io hg nofun) nofun h.issued

theorem Attached.openStep (h : Attached s) {g : Fin n} {fd : Nat} {create : Bool}
    (hg : s.fibers g = .opening fd create) (hr : s.openStep g fd create = .ok s') :
    Attached s' := by
  have hold := not_io hg nofun
  unfold System.openStep at hr
  split at hr
  · split at hr <;> cases hr
    exact h.leave rfl hold nofun h.issued
  · split at hr <;> cases hr <;> exact h.leave rfl hold nofun h.issued

theorem Attached.issue (h : Attached s) {g : Fin n} {call : Call} {outcome : Outcome}
    (hunshared : Unshared s (.issue g outcome)) (hcall : s.fibers g = .io call)
    (hr : s.issue g call outcome = some s') : Attached s' := by
  unfold System.issue at hr
  split at hr
  · rename_i hpc
    have hactive : call.pc ≠ .suspended := by
      rcases hpc with hpc | hpc <;> rw [hpc] <;> nofun
    have hmay : ∀ q, call.mayIssue q = true := by
      intro q
      rcases hpc with hpc | hpc <;> rw [Call.mayIssue, hpc]
    have hrecorded := h.recorded hcall (hmay _)
    have hend : Attached ((s.record call).become g .user) :=
      h.leave rfl (active hcall hactive) nofun hrecorded
    split at hr
    · cases hr
      exact hend
    · split at hr
      · cases hr
        exact hend
      · cases hr
        split
        · exact ⟨h.coherent, h.closed, h.waiting, h.queued, h.own, hrecorded⟩
        · exact hend
      · cases hr
        split
        · exact h.goto rfl hcall hactive (by simp) rfl rfl (fun _ => hmay _) hrecorded
        · exact hend
      · rename_i fd
        split at hr <;> cases hr
        rename_i hfree
        have hopen := h.openFile hfree.2 hunshared
        exact hopen.leave rfl (active hcall hactive) nofun hrecorded
  · cases hr

theorem op_attached (s : System n) (a : Action n) (r : Except Fault (System n))
    (h : Attached s) (hunshared : Unshared s a) (hr : op s a = some r) :
    Holds Attached (fun _ => True) r := by
  cases r with
  | error e => trivial
  | ok t =>
      cases a with
      | io f fd accepts writes =>
          simp only [op] at hr
          split at hr <;> cases hr
          rename_i huser
          refine h.go rfl (not_io huser nofun) (fun call hc => ?_) h.issued
          cases hc
          exact ⟨by simp, fun _ => .inl rfl⟩
      | close f fd =>
          simp only [op] at hr
          split at hr <;> cases hr
          rename_i huser
          exact h.leave rfl (not_io huser nofun) nofun h.issued
      | socket f fd =>
          simp only [op] at hr
          split at hr <;> cases hr
          rename_i hfree
          exact (h.openFile hfree.2 hunshared).leave rfl (not_io hfree.1 nofun) nofun h.issued
      | fiber f =>
          simp only [op] at hr
          split at hr
          · cases hr
          · rename_i call hcall
            obtain ⟨u, hu, hok⟩ := Option.map_eq_some_iff.mp hr
            cases hok
            exact h.ioStep hcall hu
          · rename_i fd pc hg
            obtain ⟨u, hu, hok⟩ := Option.map_eq_some_iff.mp hr
            cases hok
            exact h.closeStep hg hu
          · rename_i fd create hg
            exact h.openStep hg (Option.some.inj hr)
      | issue f outcome =>
          simp only [op] at hr
          split at hr
          · rename_i call hcall
            obtain ⟨u, hu, hok⟩ := Option.map_eq_some_iff.mp hr
            cases hok
            exact h.issue hunshared hcall hu
          · cases hr
      | register f granted =>
          simp only [op] at hr
          split at hr
          · rename_i call hcall
            split at hr
            · rename_i hpc
              exact h.register hcall hpc (Option.some.inj hr)
            · cases hr
          · cases hr
      | cancelAll f granted =>
          simp only [op] at hr
          split at hr
          · rename_i fd hg
            split at hr <;> cases hr
            rename_i m hrun
            exact (h.afterEvents (h.coherent.cancelAll hrun)).leave rfl (not_io hg nofun) nofun
              h.issued
          · cases hr
      | resume f =>
          simp only [op] at hr
          split at hr
          · rename_i call hcall
            split at hr <;> cases hr
            rename_i hq
            exact h.resume hcall hq.1 hq.2
          · cases hr
      | timeout f =>
          simp only [op] at hr
          split at hr
          · rename_i call hcall
            split at hr <;> cases hr
            exact h.timeout hcall
          · cases hr
      | cancelEvent fd event granted =>
          simp only [op] at hr
          split at hr <;> cases hr
          rename_i m hrun
          exact h.afterEvents (h.coherent.cancelEvent hrun)
      | dispatch fd report granted =>
          simp only [op] at hr
          split at hr <;> cases hr
          rename_i m hrun
          exact h.afterEvents (h.coherent.dispatch hrun)
      | setUserNonblock fd v =>
          cases hr
          exact h.changeCtx fd _
      | setTimeout fd event v =>
          cases hr
          exact h.changeCtx fd _

/-! ## Every run -/

/-- While no number is given away under a call that has a system call left, every
system call of `do_io` acts on the file its call began with, or finds no file. -/
theorem unshared_calls_own {s : System n}
    (h : Reaches step (onOk Unshared) (.ok (.init n)) (.ok s)) :
    ∀ x ∈ s.issued, x.target = x.began ∨ x.target = none := by
  have hinv : Attached s := h.invariant (preserves_abortable op_attached) (attached_init n)
  exact hinv.issued

/-- Fiber 0 waits on descriptor 0, fiber 1 closes it, fiber 0 retries, and the number is used
again. -/
def unsharedRun : List (Action 2) :=
  [.socket 0 0, .fiber 0, .fiber 0, .io 0 0 false false, .fiber 0, .fiber 0, .issue 0 .again,
    .fiber 0, .register 0 true, .close 1 0, .fiber 1, .cancelAll 1 true, .fiber 1, .fiber 1,
    .resume 0, .fiber 0, .issue 0 .done, .socket 1 0]

theorem unshared_calls_own_sample :
    ∃ s, checkedRun step (fun s a => decide (onOk Unshared s a)) (.ok (.init 2)) unsharedRun =
        some (.ok s) ∧ s.issued.length = 3 ∧ s.files 0 = some 2 ∧
      ∀ x ∈ s.issued, x.target = x.began ∨ x.target = none := by
  have hrun : (checkedRun step (fun s a => decide (onOk Unshared s a)) (.ok (.init 2))
      unsharedRun).any (okAnd fun s => decide (s.issued.length = 3 ∧ s.files 0 = some 2)) := by
    decide
  obtain ⟨s, hr, hlen, hfile⟩ := exists_ok_of_any hrun
  exact ⟨s, hr, hlen, hfile, unshared_calls_own (.of_decidedRun hr)⟩

/-! ## A call on a stranger's file -/

/-- The number is given to a new socket before the waiter that `close` woke retries. -/
def reuseRun : List (Action 2) :=
  [.socket 0 0, .fiber 0, .fiber 0, .io 0 0 false false, .fiber 0, .fiber 0, .issue 0 .again,
    .fiber 0, .register 0 true, .close 1 0, .fiber 1, .cancelAll 1 true, .fiber 1, .fiber 1,
    .socket 1 0, .resume 0, .fiber 0, .issue 0 .done]

/-- After `goto retry` the call acts on the file that was opened after its own was closed. -/
theorem retry_on_new_file :
    ∃ s, Reaches step (onOk Free) (.ok (.init 2)) (.ok s) ∧ ⟨some 1, some 2⟩ ∈ s.issued := by
  have hrun : (checkedRun step (fun s a => decide (onOk Free s a)) (.ok (.init 2))
      reuseRun).any (okAnd fun s => decide (⟨some 1, some 2⟩ ∈ s.issued)) := by decide
  obtain ⟨s, hr, hs⟩ := exists_ok_of_any hrun
  exact ⟨s, .of_decidedRun hr, hs⟩

end Sylar.Hook
