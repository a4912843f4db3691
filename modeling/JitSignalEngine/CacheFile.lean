import JitSignalEngine.InodeFs

/-!
# Cache files of concurrent compiles

`WriteModuleToCache` writes the temporary file of a key and renames it over the cache file.
`ReadModuleFromCache` opens the cache file and reads it. Here any number of calls of both
take their steps in any order.

* `WriterState`, `ReaderState` — where a call stands.
* `CacheState.step` — one step of one call.
* `CacheInv` — published files are complete, and no writer has them open.
* `cache_reads_complete` — readers get whole modules while writers take turns.
* `cache_read_torn` — two writers that overlap, and a reader that gets half a module.

All writers of a key use one temporary name, so an open truncates the file another writer is
about to rename.
-/

namespace JitSignalEngine

/-- The two names of a key. -/
inductive CacheName where
  /-- `tmp_path` -/
  | tmpPath
  /-- `dst_path` -/
  | dstPath
deriving DecidableEq, Repr

/-- Where a call of `WriteModuleToCache` stands. -/
inductive WriterState where
  | start
  /-- the stream is open, so much is written -/
  | writing (inode offset : Nat)
  /-- behind the scope of the stream -/
  | closed
  /-- `rename` reported an error -/
  | renameFailed
  | returned (ok : Bool)
deriving DecidableEq, Repr

/-- Between the open and the return. -/
def WriterState.inProgress : WriterState → Bool
  | .start | .returned _ => false
  | .writing _ _ | .closed | .renameFailed => true

/-- Where a call of `ReadModuleFromCache` stands. -/
inductive ReaderState (β : Type) where
  | start
  /-- there is no such file -/
  | notFound
  /-- the file is open, so much is read -/
  | reading (inode : Nat) (bytes : List β)
  /-- the bytes the module is parsed from -/
  | done (bytes : List β)
deriving DecidableEq, Repr

/-- A directory of the cache and the calls on one key. `W` are the writers, `R` the
readers. -/
structure CacheState (W R β : Type) where
  /-- the files -/
  fs : InodeFs CacheName β
  /-- the calls of `WriteModuleToCache` -/
  writers : W → WriterState
  /-- the calls of `ReadModuleFromCache` -/
  readers : R → ReaderState β

/-- A step of one call. -/
inductive CacheAction (W R : Type) where
  /-- the temporary file cannot be opened -/
  | openFails (w : W)
  /-- the temporary file is created or truncated -/
  | openTmp (w : W)
  /-- the next `n` bytes of the module -/
  | write (w : W) (n : Nat)
  /-- the stream has an error, or the process dies -/
  | writeFails (w : W)
  /-- the stream is closed behind the last byte -/
  | close (w : W)
  /-- `rename(tmp_path, dst_path)` -/
  | rename (w : W)
  /-- `rename` reports an error -/
  | renameFails (w : W)
  /-- `remove(tmp_path)` -/
  | remove (w : W)
  /-- the cache file is opened, if there is one -/
  | openDst (r : R)
  /-- the next `n` bytes of the file -/
  | read (r : R) (n : Nat)
  /-- the end of the file is reached -/
  | finish (r : R)

namespace CacheState

variable {W R β : Type}

/-- An empty directory. -/
def init : CacheState W R β := ⟨.empty, fun _ => .start, fun _ => .start⟩

variable [DecidableEq W] [DecidableEq R]

/-- A writer moves on. -/
def setWriter (st : CacheState W R β) (w : W) (s : WriterState) : CacheState W R β :=
  { st with writers := Function.update st.writers w s }

/-- A reader moves on. -/
def setReader (st : CacheState W R β) (r : R) (s : ReaderState β) : CacheState W R β :=
  { st with readers := Function.update st.readers r s }

variable (zero : β) (module : W → List β)

/-- One step, if the call stands where it takes it. `module` are the bytes each writer
writes. -/
def step (st : CacheState W R β) : CacheAction W R → Option (CacheState W R β)
  | .openFails w =>
    match st.writers w with
    | .start => some (st.setWriter w (.returned false))
    | _ => none
  | .openTmp w =>
    match st.writers w with
    | .start =>
      let (fs, i) := st.fs.openTruncate .tmpPath
      some ({ st with fs }.setWriter w (.writing i 0))
    | _ => none
  | .write w n =>
    match st.writers w with
    | .writing i offset =>
      let bytes := ((module w).drop offset).take n
      some ({ st with fs := st.fs.write zero i offset bytes }.setWriter w
        (.writing i (offset + bytes.length)))
    | _ => none
  | .writeFails w =>
    match st.writers w with
    | .writing _ _ => some (st.setWriter w (.returned false))
    | _ => none
  | .close w =>
    match st.writers w with
    | .writing _ offset =>
      if offset = (module w).length then some (st.setWriter w .closed) else none
    | _ => none
  | .rename w =>
    match st.writers w with
    | .closed =>
      match st.fs.rename .tmpPath .dstPath with
      | some fs => some ({ st with fs }.setWriter w (.returned true))
      | none => some (st.setWriter w .renameFailed)
    | _ => none
  | .renameFails w =>
    match st.writers w with
    | .closed => some (st.setWriter w .renameFailed)
    | _ => none
  | .remove w =>
    match st.writers w with
    | .renameFailed =>
      some ({ st with fs := st.fs.unlink .tmpPath }.setWriter w (.returned false))
    | _ => none
  | .openDst r =>
    match st.readers r with
    | .start =>
      match st.fs.dir .dstPath with
      | none => some (st.setReader r .notFound)
      | some i => some (st.setReader r (.reading i []))
    | _ => none
  | .read r n =>
    match st.readers r with
    | .reading i bytes =>
      some (st.setReader r (.reading i (bytes ++ st.fs.read i bytes.length n)))
    | _ => none
  | .finish r =>
    match st.readers r with
    | .reading i bytes =>
      if (st.fs.data i).length ≤ bytes.length then some (st.setReader r (.done bytes)) else none
    | _ => none

/-- The steps of a run. -/
def run (st : CacheState W R β) : List (CacheAction W R) → Option (CacheState W R β)
  | [] => some st
  | a :: rest => (st.step zero module a).bind fun st => run st rest

end CacheState

/-! ## Writers in turn -/

namespace CacheState

variable {W R β : Type} [DecidableEq W] [DecidableEq R] (zero : β) (module : W → List β)

/-- A writer opens the temporary file only while no other writer is in progress. -/
def inTurn (st : CacheState W R β) : CacheAction W R → Prop
  | .openTmp _ => ∀ w, (st.writers w).inProgress = false
  | _ => True

/-- The writers of a run take turns. -/
def RunInTurn (st : CacheState W R β) : List (CacheAction W R) → Prop
  | [] => True
  | a :: rest => st.inTurn a ∧ ∀ st', st.step zero module a = some st' → RunInTurn st' rest

/-- A file that nobody writes any more: it holds a whole module and its name is not the
temporary one. -/
structure Published (fs : InodeFs CacheName β) (i : Nat) : Prop where
  used : i < fs.next
  not_tmp : fs.dir .tmpPath ≠ some i
  complete : ∃ w, fs.data i = module w

/-- The invariant of writers that take turns. -/
structure CacheInv (st : CacheState W R β) : Prop where
  /-- one writer at a time -/
  single : ∀ w w', (st.writers w).inProgress = true → (st.writers w').inProgress = true →
    w = w'
  /-- the writer writes the temporary file, and has written what it counted -/
  writing : ∀ w i offset, st.writers w = .writing i offset →
    st.fs.dir .tmpPath = some i ∧ offset ≤ (module w).length ∧
      st.fs.data i = (module w).take offset
  /-- a closed file is complete -/
  closed : ∀ w i, st.writers w = .closed → st.fs.dir .tmpPath = some i →
    st.fs.data i = module w
  published : ∀ i, st.fs.dir .dstPath = some i → Published module st.fs i
  /-- a reader has read a prefix of a published file -/
  reading : ∀ r i bytes, st.readers r = .reading i bytes →
    Published module st.fs i ∧ bytes <+: st.fs.data i
  done : ∀ r bytes, st.readers r = .done bytes → ∃ w, bytes = module w

variable {zero} {module}

omit [DecidableEq W] [DecidableEq R] in
theorem cacheInv_init : CacheInv module (init : CacheState W R β) :=
  ⟨nofun, nofun, nofun, nofun, nofun, nofun⟩

omit [DecidableEq R] in
theorem setWriter_self (st : CacheState W R β) (w : W) (s : WriterState) :
    (st.setWriter w s).writers w = s :=
  Function.update_self ..

omit [DecidableEq R] in
theorem setWriter_ne (st : CacheState W R β) {w w' : W} (h : w' ≠ w) (s : WriterState) :
    (st.setWriter w s).writers w' = st.writers w' :=
  Function.update_of_ne h ..

omit [DecidableEq W] in
theorem setReader_self (st : CacheState W R β) (r : R) (s : ReaderState β) :
    (st.setReader r s).readers r = s :=
  Function.update_self ..

omit [DecidableEq W] in
theorem setReader_ne (st : CacheState W R β) {r r' : R} (h : r' ≠ r) (s : ReaderState β) :
    (st.setReader r s).readers r' = st.readers r' :=
  Function.update_of_ne h ..

omit [DecidableEq W] [DecidableEq R] in
/-- Published files stay, as long as other data changes and other files get the temporary
name. -/
theorem Published.mono {fs fs' : InodeFs CacheName β} {i : Nat} (h : Published module fs i)
    (hnext : fs.next ≤ fs'.next) (htmp : fs'.dir .tmpPath ≠ some i)
    (hdata : fs'.data i = fs.data i) : Published module fs' i :=
  ⟨h.used.trans_le hnext, htmp, hdata ▸ h.complete⟩

omit [DecidableEq R] in
/-- A step of the writer in progress to `s`. What it does to the files leaves the published
ones, and is right for `s`. -/
theorem CacheInv.setWriter {st : CacheState W R β} (hinv : CacheInv module st) {w : W}
    {fs : InodeFs CacheName β} {s : WriterState}
    (hw : ∀ w', w' ≠ w → (st.writers w').inProgress = false)
    (hkept : ∀ i, Published module st.fs i → Published module fs i ∧ fs.data i = st.fs.data i)
    (hdst : ∀ i, fs.dir .dstPath = some i → Published module fs i)
    (hwriting : ∀ i offset, s = .writing i offset → fs.dir .tmpPath = some i ∧
      offset ≤ (module w).length ∧ fs.data i = (module w).take offset)
    (hclosed : ∀ i, s = .closed → fs.dir .tmpPath = some i → fs.data i = module w) :
    CacheInv module ({ st with fs }.setWriter w s) where
  single a b ha hb := by
    have honly : ∀ c, (({ st with fs }.setWriter w s).writers c).inProgress = true → c = w := by
      intro c hc
      by_contra hne
      rw [setWriter_ne _ hne] at hc
      exact absurd hc (by simp [hw c hne])
    rw [honly a ha, honly b hb]
  writing a i offset h := by
    by_cases ha : a = w
    · subst ha
      rw [setWriter_self] at h
      exact hwriting i offset h
    · have hidle := hw a ha
      rw [← setWriter_ne { st with fs } ha s] at hidle
      rw [h] at hidle
      cases hidle
  closed a i h htmp := by
    by_cases ha : a = w
    · subst ha
      rw [setWriter_self] at h
      exact hclosed i h htmp
    · have hidle := hw a ha
      rw [← setWriter_ne { st with fs } ha s] at hidle
      rw [h] at hidle
      cases hidle
  published i h := hdst i h
  reading r i bytes h := by
    obtain ⟨hpublished, hbytes⟩ := hinv.reading r i bytes h
    obtain ⟨hpublished', hdata⟩ := hkept i hpublished
    exact ⟨hpublished', hdata ▸ hbytes⟩
  done r bytes h := hinv.done r bytes h

omit [DecidableEq R] in
/-- A step of the writer in progress that leaves the files. -/
theorem CacheInv.setWriter_same {st : CacheState W R β} (hinv : CacheInv module st) {w : W}
    {s : WriterState} (hw : ∀ w', w' ≠ w → (st.writers w').inProgress = false)
    (hwriting : ∀ i offset, s ≠ .writing i offset)
    (hclosed : ∀ i, s = .closed → st.fs.dir .tmpPath = some i → st.fs.data i = module w) :
    CacheInv module (st.setWriter w s) :=
  hinv.setWriter hw (fun _ h => ⟨h, rfl⟩) hinv.published
    (fun i offset h => absurd h (hwriting i offset)) hclosed

omit [DecidableEq W] in
/-- A step of a reader. -/
theorem CacheInv.setReader {st : CacheState W R β} (hinv : CacheInv module st) {r : R}
    {s : ReaderState β}
    (hreading : ∀ i bytes, s = .reading i bytes → Published module st.fs i ∧
      bytes <+: st.fs.data i)
    (hdone : ∀ bytes, s = .done bytes → ∃ w, bytes = module w) :
    CacheInv module (st.setReader r s) where
  single := hinv.single
  writing := hinv.writing
  closed := hinv.closed
  published := hinv.published
  reading r' i bytes h := by
    by_cases hr : r' = r
    · subst hr
      rw [setReader_self] at h
      exact hreading i bytes h
    · rw [setReader_ne _ hr] at h
      exact hinv.reading r' i bytes h
  done r' bytes h := by
    by_cases hr : r' = r
    · subst hr
      rw [setReader_self] at h
      exact hdone bytes h
    · rw [setReader_ne _ hr] at h
      exact hinv.done r' bytes h

omit [DecidableEq W] [DecidableEq R] in
/-- Next to a writer in progress there is no other. -/
theorem CacheInv.others {st : CacheState W R β} (hinv : CacheInv module st) {w : W}
    (hw : (st.writers w).inProgress = true) :
    ∀ w', w' ≠ w → (st.writers w').inProgress = false := by
  intro w' hne
  by_contra h
  exact hne (hinv.single w' w (by simpa using h) hw)

omit [DecidableEq R] in
/-- A writer that returns and leaves the files. -/
theorem CacheInv.setWriter_returned {st : CacheState W R β} (hinv : CacheInv module st) (w : W)
    (ok : Bool) : CacheInv module (st.setWriter w (.returned ok)) where
  single a b ha hb := by
    have hne : ∀ c, ((st.setWriter w (.returned ok)).writers c).inProgress = true → c ≠ w := by
      rintro c hc rfl
      rw [setWriter_self] at hc
      cases hc
    rw [setWriter_ne _ (hne a ha)] at ha
    rw [setWriter_ne _ (hne b hb)] at hb
    exact hinv.single a b ha hb
  writing a i offset h := by
    by_cases ha : a = w
    · subst ha
      rw [setWriter_self] at h
      cases h
    · exact hinv.writing a i offset ((setWriter_ne _ ha _).symm.trans h)
  closed a i h := by
    by_cases ha : a = w
    · subst ha
      rw [setWriter_self] at h
      cases h
    · exact hinv.closed a i ((setWriter_ne _ ha _).symm.trans h)
  published := hinv.published
  reading := hinv.reading
  done := hinv.done

/-- **Step lemma.** A step of writers that take turns keeps the invariant. -/
theorem cacheInv_step {st st' : CacheState W R β} {a : CacheAction W R}
    (hinv : CacheInv module st) (hturn : st.inTurn a)
    (h : st.step zero module a = some st') : CacheInv module st' := by
  cases a with
  | openFails w =>
    simp only [step] at h
    split at h <;> cases h
    exact hinv.setWriter_returned w false
  | openTmp w =>
    simp only [step] at h
    split at h <;> cases h
    have hnew : ∀ i, Published module st.fs i → i ≠ (st.fs.openTruncate .tmpPath).2 := by
      rintro i hi rfl
      rcases st.fs.openTruncate_inode .tmpPath with htmp | hnext
      · exact hi.not_tmp htmp
      · exact absurd hi.used (by omega)
    have hkept : ∀ i, Published module st.fs i →
        Published module (st.fs.openTruncate .tmpPath).1 i ∧
          (st.fs.openTruncate .tmpPath).1.data i = st.fs.data i := by
      intro i hi
      have hdata := st.fs.openTruncate_data_ne (hnew i hi)
      refine ⟨hi.mono (st.fs.openTruncate_next _) ?_ hdata, hdata⟩
      rw [st.fs.openTruncate_dir]
      exact fun heq => hnew i hi (Option.some.inj heq).symm
    refine hinv.setWriter (fun w' _ => hturn w') hkept (fun i hi => ?_) ?_ nofun
    · rw [st.fs.openTruncate_dir_ne (by decide)] at hi
      exact (hkept i (hinv.published i hi)).1
    · rintro i offset ⟨⟩
      exact ⟨st.fs.openTruncate_dir _, Nat.zero_le _, st.fs.openTruncate_data _⟩
  | write w n =>
    simp only [step] at h
    split at h <;> cases h
    rename_i i offset hw
    obtain ⟨htmp, hle, hdata⟩ := hinv.writing w i offset hw
    have hkept : ∀ (bytes : List β) j, Published module st.fs j →
        Published module (st.fs.write zero i offset bytes) j ∧
          (st.fs.write zero i offset bytes).data j = st.fs.data j := by
      intro bytes j hj
      have hne : j ≠ i := by
        rintro rfl
        exact hj.not_tmp htmp
      have hsame := st.fs.write_data_ne zero hne offset bytes
      exact ⟨hj.mono le_rfl hj.not_tmp hsame, hsame⟩
    refine hinv.setWriter (hinv.others (by rw [hw]; rfl)) (hkept _)
      (fun j hj => (hkept _ j (hinv.published j hj)).1) ?_ nofun
    rintro _ _ ⟨⟩
    refine ⟨htmp, ?_, ?_⟩
    · rw [List.length_take, List.length_drop]
      omega
    · rw [st.fs.write_data, hdata, InodeFs.writeAt_take zero _ _ _ hle, List.length_take,
        List.length_drop]
      rcases Nat.le_total n ((module w).length - offset) with hn | hn
      · rw [min_eq_left hn]
      · rw [min_eq_right hn, List.take_of_length_le (by omega), List.take_of_length_le (by omega)]
  | writeFails w =>
    simp only [step] at h
    split at h <;> cases h
    exact hinv.setWriter_returned w false
  | close w =>
    simp only [step] at h
    split at h
    · rename_i i offset hw
      split at h <;> cases h
      rename_i hend
      obtain ⟨htmp, -, hdata⟩ := hinv.writing w i offset hw
      refine hinv.setWriter_same (hinv.others (by rw [hw]; rfl)) nofun fun j _ hj => ?_
      cases htmp.symm.trans hj
      rw [hdata, hend, List.take_length]
    · cases h
  | rename w =>
    simp only [step] at h
    split at h
    · rename_i hw
      have hothers := hinv.others (w := w) (by rw [hw]; rfl)
      split at h <;> cases h
      · rename_i fs hrename
        obtain ⟨i, htmp, hdata, hnext, hdir⟩ := InodeFs.rename_eq_some hrename
        have htmp' : fs.dir .tmpPath = none := by rw [hdir, Function.update_self]
        have hdst' : fs.dir .dstPath = some i := by
          rw [hdir, Function.update_of_ne (by decide), Function.update_self]
        have hkept : ∀ j, Published module st.fs j →
            Published module fs j ∧ fs.data j = st.fs.data j := fun j hj =>
          ⟨hj.mono hnext.ge (by rw [htmp']; nofun) (congrFun hdata j), congrFun hdata j⟩
        refine hinv.setWriter hothers hkept (fun j hj => ?_) nofun nofun
        -- the file that is renamed is published now
        cases hdst'.symm.trans hj
        exact ⟨hnext ▸ st.fs.dir_lt _ i htmp, by rw [htmp']; nofun, w, by
          rw [hdata]
          exact hinv.closed w i hw htmp⟩
      · exact hinv.setWriter_same hothers nofun nofun
    · cases h
  | renameFails w =>
    simp only [step] at h
    split at h <;> cases h
    rename_i hw
    exact hinv.setWriter_same (hinv.others (by rw [hw]; rfl)) nofun nofun
  | remove w =>
    simp only [step] at h
    split at h <;> cases h
    rename_i hw
    have htmp : (st.fs.unlink .tmpPath).dir .tmpPath = none := st.fs.unlink_dir_self _
    have hkept : ∀ j, Published module st.fs j → Published module (st.fs.unlink .tmpPath) j ∧
        (st.fs.unlink .tmpPath).data j = st.fs.data j := fun j hj =>
      ⟨hj.mono le_rfl (by rw [htmp]; nofun) rfl, rfl⟩
    refine hinv.setWriter (hinv.others (by rw [hw]; rfl)) hkept (fun j hj => ?_) nofun nofun
    rw [st.fs.unlink_dir_ne (by decide)] at hj
    exact (hkept j (hinv.published j hj)).1
  | openDst r =>
    simp only [step] at h
    split at h
    · split at h <;> cases h
      · exact hinv.setReader nofun nofun
      · rename_i i hdst
        refine hinv.setReader ?_ nofun
        rintro _ _ ⟨⟩
        exact ⟨hinv.published i hdst, List.nil_prefix⟩
    · cases h
  | read r n =>
    simp only [step] at h
    split at h <;> cases h
    rename_i i bytes hr
    obtain ⟨hpublished, hbytes⟩ := hinv.reading r i bytes hr
    refine hinv.setReader ?_ nofun
    rintro _ _ ⟨⟩
    exact ⟨hpublished, InodeFs.append_read_prefix hbytes n⟩
  | finish r =>
    simp only [step] at h
    split at h
    · rename_i i bytes hr
      split at h <;> cases h
      rename_i hend
      obtain ⟨⟨-, -, w, hw⟩, hbytes⟩ := hinv.reading r i bytes hr
      refine hinv.setReader nofun ?_
      rintro _ ⟨⟩
      refine ⟨w, ?_⟩
      rw [hbytes.eq_of_length_le hend, hw]
    · cases h

/-- **Run lemma.** While writers take turns, every reader that finds the cache file reads
the bytes of one writer. -/
theorem cache_reads_complete (zero : β) (module : W → List β) (actions : List (CacheAction W R))
    (st : CacheState W R β) (hrun : run zero module .init actions = some st)
    (hturn : RunInTurn zero module .init actions) (r : R) (bytes : List β)
    (hr : st.readers r = .done bytes) : ∃ w, bytes = module w := by
  have hinv : ∀ (st₀ : CacheState W R β), CacheInv module st₀ →
      run zero module st₀ actions = some st → RunInTurn zero module st₀ actions →
      CacheInv module st := by
    clear hrun hturn
    induction actions with
    | nil =>
      intro st₀ hinv hrun _
      cases hrun
      exact hinv
    | cons a rest ih =>
      intro st₀ hinv hrun hturn
      rw [run, Option.bind_eq_some_iff] at hrun
      obtain ⟨st₁, hstep, hrest⟩ := hrun
      exact ih st₁ (cacheInv_step hinv hturn.1 hstep) hrest (hturn.2 st₁ hstep)
  exact (hinv .init cacheInv_init hrun hturn).done r bytes hr

/-- A writer on its own, and a reader behind it. -/
theorem cache_reads_complete_once :
    ∃ st : CacheState Unit Unit Nat,
      run 0 (fun _ => [7, 8]) .init [.openTmp (), .write () 2, .close (), .rename (), .openDst (),
        .read () 2, .finish ()] = some st ∧
      st.readers () = .done [7, 8] ∧ ∃ w : Unit, [7, 8] = (fun _ : Unit => [7, 8]) w := by
  have hrun : (run 0 (fun _ : Unit => [7, 8]) (.init : CacheState Unit Unit Nat) [.openTmp (),
      .write () 2, .close (), .rename (), .openDst (), .read () 2, .finish ()]).map
        (fun st => st.readers ()) = some (.done [7, 8]) := by decide
  obtain ⟨st, hst, hr⟩ := Option.map_eq_some_iff.1 hrun
  refine ⟨st, hst, hr, cache_reads_complete 0 _ _ st hst ?_ () _ hr⟩
  refine ⟨fun _ => rfl, fun _ _ => ⟨trivial, fun _ _ => ⟨trivial, fun _ _ => ⟨trivial, fun _ _ =>
    ⟨trivial, fun _ _ => ⟨trivial, fun _ _ => ⟨trivial, fun _ _ => trivial⟩⟩⟩⟩⟩⟩⟩

/-- **Half a module.** The second writer truncates the closed file of the first, which
renames it then; a reader gets what the second has written so far. Both write the same
bytes. -/
theorem cache_read_torn :
    ∃ st : CacheState Bool Unit Nat,
      run 0 (fun _ => [7, 8]) .init [.openTmp false, .write false 2, .close false, .openTmp true,
        .write true 1, .rename false, .openDst (), .read () 2, .finish ()] = some st ∧
      st.readers () = .done [7] ∧ ¬ ∃ w : Bool, [7] = (fun _ : Bool => [7, 8]) w := by
  have hrun : (run 0 (fun _ : Bool => [7, 8]) (.init : CacheState Bool Unit Nat) [.openTmp false,
      .write false 2, .close false, .openTmp true, .write true 1, .rename false, .openDst (),
      .read () 2, .finish ()]).map (fun st => st.readers ()) = some (.done [7]) := by decide
  obtain ⟨st, hst, hr⟩ := Option.map_eq_some_iff.1 hrun
  exact ⟨st, hst, hr, by simp⟩

end CacheState

end JitSignalEngine
