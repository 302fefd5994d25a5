import RepairCorpus.Proofs.Files.Runs

/-!
# Work with more than files

Work on files is often done with something at hand: the lines that are still to be written, or the
notices that have been told.  Each of these is one more state under the work, so that the same work is
written for one stack of states here and for another there.  What all these stacks have in common is
that an action is a function of the files and of the rest, and that the accesses to files leave the
rest alone.

* `Hosted`: storage whose actions are such functions.
* `Work.Succeeds`: work succeeds, with an outcome, a rest and a directory that it leaves.
* `Work.Fails`: work fails, with a trouble.
* `Succeeds.bind`, `Succeeds.change`, `Succeeds.read`, `Succeeds.get`, `Succeeds.modify`: how successes
  are put together.
-/

namespace RepairCorpus

open Files (Directory Failure)

/-- An action on files beside a rest that it leaves alone. -/
def onFiles {ρ α : Type} (a : StateM Directory α) (w : ρ × Directory) : α × ρ × Directory :=
  ((a.run w.2).1, w.1, (a.run w.2).2)

/-- `Hosted m ρ` holds if the actions of `m` are functions of the files and of a rest of type `ρ`, and
the accesses to files are those of a directory. -/
class Hosted (m : Type → Type) [Monad m] [Storage m] (ρ : outParam Type) where
  act {α : Type} : m α → ρ × Directory → α × ρ × Directory
  act_pure {α : Type} (x : α) (w : ρ × Directory) : act (pure x) w = (x, w)
  act_bind {α β : Type} (a : m α) (f : α → m β) (w : ρ × Directory) :
    act (a >>= f) w = act (f (act a w).1) (act a w).2
  act_read (path : String) : act (Storage.read path) = onFiles (Storage.read path)
  act_create (path : String) : act (Storage.create path) = onFiles (Storage.create path)
  act_overwrite (path text : String) :
    act (Storage.overwrite path text) = onFiles (Storage.overwrite path text)
  act_makeDirectories (path : String) :
    act (Storage.makeDirectories path) = onFiles (Storage.makeDirectories path)
  act_has (path : String) : act (Storage.has path) = onFiles (Storage.has path)
  act_hasFile (path : String) : act (Storage.hasFile path) = onFiles (Storage.hasFile path)
  act_list (path : String) : act (Storage.list path) = onFiles (Storage.list path)

namespace Hosted

/-- A directory has nothing else at hand. -/
instance directory : Hosted (StateM Directory) Unit where
  act := onFiles
  act_pure _ _ := rfl
  act_bind _ _ _ := rfl
  act_read _ := rfl
  act_create _ := rfl
  act_overwrite _ _ := rfl
  act_makeDirectories _ := rfl
  act_has _ := rfl
  act_hasFile _ := rfl
  act_list _ := rfl

variable {m : Type → Type} [Monad m] [Storage m] {ρ σ α : Type} [Hosted m ρ]

/-- An action with one more state at hand. -/
def actWith (a : StateT σ m α) (w : (σ × ρ) × Directory) : α × (σ × ρ) × Directory :=
  let o := act (a.run w.1.1) (w.1.2, w.2)
  (o.1.1, (o.1.2, o.2.1), o.2.2)

/-- An action on files alone does not see the state. -/
theorem actWith_lift {a : m α} {b : StateM Directory α} (h : act a = onFiles b) :
    actWith (StateT.lift a : StateT σ m α) = onFiles b := by
  funext w
  rw [actWith, StateT.run_lift, act_bind, act_pure, h]
  rfl

/-- One more state at hand. -/
instance state : Hosted (StateT σ m) (σ × ρ) where
  act := actWith
  act_pure x w := by rw [actWith, StateT.run_pure, act_pure]
  act_bind a f w := by rw [actWith, StateT.run_bind, act_bind]; rfl
  act_read path := actWith_lift (act_read path)
  act_create path := actWith_lift (act_create path)
  act_overwrite path text := actWith_lift (act_overwrite path text)
  act_makeDirectories path := actWith_lift (act_makeDirectories path)
  act_has path := actWith_lift (act_has path)
  act_hasFile path := actWith_lift (act_hasFile path)
  act_list path := actWith_lift (act_list path)

end Hosted

namespace Work

open Hosted (act)

variable {m : Type → Type} [Monad m] [Storage m] {ρ σ α β : Type} [Hosted m ρ]
  {r r' r'' : ρ} {d d' d'' : Directory} {s s' : σ} {x : α} {y : β} {path : String}

/-- `Succeeds w r d x r' d'` holds if work with a rest `r` on a directory `d` succeeds with `x` and leaves
`r'` and `d'`. -/
def Succeeds (w : Work m α) (r : ρ) (d : Directory) (x : α) (r' : ρ) (d' : Directory) : Prop :=
  act (ExceptT.run w) (r, d) = (.ok x, r', d')

namespace Succeeds

variable {w : Work m α} {f : α → Work m β}

theorem pure (x : α) (r : ρ) (d : Directory) : Succeeds (Pure.pure x : Work m α) r d x r d :=
  Hosted.act_pure _ _

theorem bind (hw : Succeeds w r d x r' d') (hf : Succeeds (f x) r' d' y r'' d'') :
    Succeeds (w >>= f) r d y r'' d'' := by
  rw [Succeeds] at hw
  rw [Succeeds, ExceptT.run_bind, Hosted.act_bind, hw]
  exact hf

/-- An access to files that succeeds. -/
theorem attempt {access : m (Except Failure α)} {a : Attempt} (h : act access (r, d) = (.ok x, r', d')) :
    Succeeds (Work.attempt a path access) r d x r' d' := by
  rw [Succeeds, Work.attempt, ExceptT.run_mk, Hosted.act_bind, h]
  exact Hosted.act_pure _ _

/-- A change of the files. -/
theorem change {access : m (Except Failure Unit)} {f : Directory → Except Failure Directory}
    {a : Attempt} (haccess : act access = onFiles (Storage.change f)) (h : f d = .ok d') :
    Succeeds (Work.attempt a path access) r d () r d' := by
  refine attempt ?_
  rw [haccess, onFiles]
  show (((Storage.change f) d).1, r, ((Storage.change f) d).2) = _
  rw [Storage.change, h]

/-- Reading a file. -/
theorem read {a : Attempt} {text : String} (h : d.read path = .ok text) :
    Succeeds (Work.attempt a path (Storage.read path) : Work m String) r d text r d := by
  refine attempt ?_
  rw [Hosted.act_read, ← h]
  rfl

variable [LawfulMonad m]

/-- A question. -/
theorem query {access : m α} (h : act access (r, d) = (x, r', d')) :
    Succeeds (Work.query access) r d x r' d' := by
  rw [Succeeds, Work.query, ExceptT.run_lift, ← bind_pure_comp, Hosted.act_bind, h]
  exact Hosted.act_pure _ _

/-- Asking whether there is a file. -/
theorem hasFile : Succeeds (Work.query (Storage.hasFile path) : Work m Bool) r d (d.hasFile path) r d := by
  refine query ?_
  rw [Hosted.act_hasFile]
  rfl

/-- Looking at the state. -/
theorem get : Succeeds (MonadState.get : Work (StateT σ m) σ) (s, r) d s (s, r) d := by
  refine query (?_ : Hosted.actWith MonadState.get _ = _)
  rw [Hosted.actWith, StateT.run_get, Hosted.act_pure]

/-- Changing the state. -/
theorem modify {g : σ → σ} :
    Succeeds (modify g : Work (StateT σ m) Unit) (s, r) d () (g s, r) d := by
  have hrun : (modifyThe σ g : StateT σ m Unit).run s = Pure.pure ((), g s) := rfl
  refine query (?_ : Hosted.actWith (modifyThe σ g) _ = _)
  rw [Hosted.actWith, hrun, Hosted.act_pure]

/-- Work that is looked at from outside. -/
theorem result (h : Succeeds w r d x r' d') :
    Succeeds (Work.query (ExceptT.run w) : Work m (Except Trouble α)) r d (.ok x) r' d' :=
  query h

/-- Work with a state that is given to it and looked at afterwards. -/
theorem resultState {v : Work (StateT σ m) α} (h : Succeeds v (s, r) d x (s', r') d') :
    Succeeds (Work.query ((ExceptT.run v).run s) : Work m (Except Trouble α × σ)) r d (.ok x, s') r' d' := by
  refine query ?_
  have hact : Hosted.actWith (ExceptT.run v) ((s, r), d) = (.ok x, (s', r'), d') := h
  rw [Hosted.actWith] at hact
  obtain ⟨hx, hrest⟩ := Prod.mk.inj hact
  obtain ⟨hstate, hd⟩ := Prod.mk.inj hrest
  obtain ⟨hs, hr⟩ := Prod.mk.inj hstate
  exact Prod.ext (Prod.ext hx hs) (Prod.ext hr hd)

end Succeeds

/-- `Fails w r d t r' d'` holds if work with a rest `r` on a directory `d` fails with `t` and leaves `r'` and
`d'`. -/
def Fails (w : Work m α) (r : ρ) (d : Directory) (t : Trouble) (r' : ρ) (d' : Directory) : Prop :=
  act (ExceptT.run w) (r, d) = (.error t, r', d')

section

variable {w : Work m α} {f : α → Work m β} {t : Trouble}

/-- What comes after a failure is not done. -/
theorem Fails.bind (hw : Fails w r d t r' d') : Fails (w >>= f) r d t r' d' := by
  rw [Fails] at hw
  rw [Fails, ExceptT.run_bind, Hosted.act_bind, hw]
  exact Hosted.act_pure _ _

theorem Succeeds.bind_fails (hw : Succeeds w r d x r' d') (hf : Fails (f x) r' d' t r'' d'') :
    Fails (w >>= f) r d t r'' d'' := by
  rw [Succeeds] at hw
  rw [Fails, ExceptT.run_bind, Hosted.act_bind, hw]
  exact hf

/-- A change of the files that fails leaves them as they are. -/
theorem Fails.change {access : m (Except Failure Unit)} {g : Directory → Except Failure Directory}
    {a : Attempt} {e : Failure} (haccess : act access = onFiles (Storage.change g)) (h : g d = .error e) :
    Fails (Work.attempt a path access) r d (.access a path e) r d := by
  have hact : act access (r, d) = (.error e, r, d) := by
    rw [haccess, onFiles]
    show (((Storage.change g) d).1, r, ((Storage.change g) d).2) = _
    rw [Storage.change, h]
  rw [Fails, Work.attempt, ExceptT.run_mk, Hosted.act_bind, hact]
  exact Hosted.act_pure _ _

end

/-- With nothing but files at hand, success is a run on them. -/
theorem Succeeds.runs {w : Work (StateM Directory) α} (h : Succeeds w () d x () d') : Runs w d x d' := by
  have hact : onFiles (ExceptT.run w) ((), d) = (.ok x, (), d') := h
  obtain ⟨hx, hrest⟩ := Prod.mk.inj hact
  exact Prod.ext hx (Prod.mk.inj hrest).2

/-- With one state at hand, success is a run on the files from that state. -/
theorem Succeeds.run_state {w : Work (StateT σ (StateM Directory)) α}
    (h : Succeeds w (s, ()) d x (s', ()) d') : ((ExceptT.run w).run s).run d = ((.ok x, s'), d') := by
  have hact : Hosted.actWith (ExceptT.run w) ((s, ()), d) = (.ok x, (s', ()), d') := h
  obtain ⟨hx, hrest⟩ := Prod.mk.inj hact
  obtain ⟨hstate, hd⟩ := Prod.mk.inj hrest
  exact Prod.ext (Prod.ext hx (Prod.mk.inj hstate).1) hd

/-- With one state at hand, failure is a run on the files from that state. -/
theorem Fails.run_state {w : Work (StateT σ (StateM Directory)) α} {t : Trouble}
    (h : Fails w (s, ()) d t (s', ()) d') : ((ExceptT.run w).run s).run d = ((.error t, s'), d') := by
  have hact : Hosted.actWith (ExceptT.run w) ((s, ()), d) = (.error t, (s', ()), d') := h
  obtain ⟨ht, hrest⟩ := Prod.mk.inj hact
  obtain ⟨hstate, hd⟩ := Prod.mk.inj hrest
  exact Prod.ext (Prod.ext ht (Prod.mk.inj hstate).1) hd

end Work

end RepairCorpus
