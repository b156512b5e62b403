import Mathlib.Logic.Function.Basic

/-!
# Scripts over a store of files

A script raises an error or returns a value, and leaves a store of files in both cases.  `Keeps` is the
frame rule, one lemma for each construct; `Triple` has a postcondition for each of the two ends.
-/

namespace LinuxAnalysis.Lib

abbrev Files (κ β : Type) := κ → Option β

def Script (ε κ β α : Type) := Files κ β → Except ε α × Files κ β

namespace Script

variable {ε κ β α γ : Type}

def andThen (s : Script ε κ β α) (f : α → Script ε κ β γ) : Script ε κ β γ := fun files =>
  match s files with
  | (.ok a, files) => f a files
  | (.error e, files) => (.error e, files)

instance : Monad (Script ε κ β) where
  pure a := fun files => (.ok a, files)
  bind := andThen

def raise (e : ε) : Script ε κ β α := fun files => (.error e, files)

def ofExcept (x : Except ε α) : Script ε κ β α := fun files => (x, files)

/-- `try: body finally: cleanup`; an error of the cleanup takes the place of the outcome. -/
def tryFinally (body : Script ε κ β α) (cleanup : Script ε κ β Unit) : Script ε κ β α := fun files =>
  match cleanup (body files).2 with
  | (.ok _, files') => ((body files).1, files')
  | (.error e, files') => (.error e, files')

section Files

variable (missing : κ → ε)

def read (p : κ) : Script ε κ β β := fun files =>
  match files p with
  | some b => (.ok b, files)
  | none => (.error (missing p), files)

variable [DecidableEq κ]

def write (p : κ) (b : β) : Script ε κ β Unit := fun files =>
  (.ok (), Function.update files p (some b))

/-- Remove a file that need not exist. -/
def unlink (p : κ) : Script ε κ β Unit := fun files => (.ok (), Function.update files p none)

def copy (src dst : κ) : Script ε κ β Unit := fun files =>
  match files src with
  | some b => (.ok (), Function.update files dst (some b))
  | none => (.error (missing src), files)

def move (src dst : κ) : Script ε κ β Unit := fun files =>
  match files src with
  | some b => (.ok (), Function.update (Function.update files src none) dst (some b))
  | none => (.error (missing src), files)

end Files

/-! ## 1. Frames -/

/-- What the script returns satisfies `R`. -/
def Returns (R : α → Prop) (s : Script ε κ β α) : Prop := ∀ files a, (s files).1 = .ok a → R a

theorem Returns.pure {R : α → Prop} {a : α} (h : R a) : Returns R (pure a : Script ε κ β α) := by
  intro files b hb
  cases hb
  exact h

theorem Returns.ofExcept (x : Except ε α) :
    Returns (fun a => x = .ok a) (ofExcept x : Script ε κ β α) := fun _ _ h => h

theorem Returns.bind {s : Script ε κ β α} {f : α → Script ε κ β γ} {R : α → Prop} {R' : γ → Prop}
    (hs : Returns R s) (hf : ∀ a, R a → Returns R' (f a)) : Returns R' (s >>= f) := by
  intro files c hc
  have hvalue := hs files
  change (andThen s f files).1 = .ok c at hc
  unfold andThen at hc
  split at hc
  next a files' heq =>
    rw [heq] at hvalue
    exact hf a (hvalue a rfl) files' c hc
  next => cases hc

theorem Returns.any (s : Script ε κ β α) : Returns (fun _ => True) s := fun _ _ _ => trivial

/-- However the script ends, the file is as it was. -/
def Keeps (p : κ) (s : Script ε κ β α) : Prop := ∀ files, (s files).2 p = files p

namespace Keeps

variable {p : κ}

theorem pure (a : α) : Keeps p (pure a : Script ε κ β α) := fun _ => rfl

theorem raise (e : ε) : Keeps p (raise e : Script ε κ β α) := fun _ => rfl

theorem ofExcept (x : Except ε α) : Keeps p (ofExcept x : Script ε κ β α) := fun _ => rfl

/-- The second script may rely on what the first one returns. -/
theorem bind_returns {s : Script ε κ β α} {f : α → Script ε κ β γ} {R : α → Prop} (hs : Keeps p s)
    (hr : Returns R s) (hf : ∀ a, R a → Keeps p (f a)) : Keeps p (s >>= f) := by
  intro files
  have hfiles := hs files
  have hvalue := hr files
  show (andThen s f files).2 p = _
  unfold andThen
  split
  next a files' heq =>
    rw [heq] at hfiles hvalue
    exact (hf a (hvalue a rfl) files').trans hfiles
  next e files' heq =>
    rw [heq] at hfiles
    exact hfiles

theorem bind {s : Script ε κ β α} {f : α → Script ε κ β γ} (hs : Keeps p s)
    (hf : ∀ a, Keeps p (f a)) : Keeps p (s >>= f) :=
  hs.bind_returns (.any s) fun a _ => hf a

theorem tryFinally {body : Script ε κ β α} {cleanup : Script ε κ β Unit} (hbody : Keeps p body)
    (hcleanup : Keeps p cleanup) : Keeps p (tryFinally body cleanup) := by
  intro files
  have hfiles := (hcleanup (body files).2).trans (hbody files)
  unfold Script.tryFinally
  split
  next heq =>
    rw [heq] at hfiles
    exact hfiles
  next heq =>
    rw [heq] at hfiles
    exact hfiles

theorem foldlM {δ : Type} {f : α → δ → Script ε κ β α} (xs : List δ)
    (hf : ∀ a, ∀ x ∈ xs, Keeps p (f a x)) (a : α) : Keeps p (xs.foldlM f a) := by
  induction xs generalizing a with
  | nil => exact .pure a
  | cons x xs ih =>
    rw [List.foldlM_cons]
    exact .bind (hf a x List.mem_cons_self) fun b =>
      ih (fun a y hy => hf a y (List.mem_cons_of_mem x hy)) b

variable {missing : κ → ε} {q r : κ}

theorem read (q : κ) : Keeps p (read missing q : Script ε κ β β) := by
  intro files
  unfold Script.read
  split <;> rfl

variable [DecidableEq κ]

theorem write (h : p ≠ q) (b : β) : Keeps p (write q b : Script ε κ β Unit) :=
  fun files => Function.update_of_ne h _ files

theorem unlink (h : p ≠ q) : Keeps p (unlink q : Script ε κ β Unit) :=
  fun files => Function.update_of_ne h _ files

theorem copy (h : p ≠ r) : Keeps p (copy missing q r : Script ε κ β Unit) := by
  intro files
  unfold Script.copy
  split
  · exact Function.update_of_ne h _ files
  · rfl

theorem move (hq : p ≠ q) (hr : p ≠ r) : Keeps p (move missing q r : Script ε κ β Unit) := by
  intro files
  unfold Script.move
  split
  · exact (Function.update_of_ne hr _ _).trans (Function.update_of_ne hq _ files)
  · rfl

/-- **Backup rule.**  A file that is copied away and moved back in the end is kept, whatever the body
does to it, if the body keeps the copy. -/
theorem backup {body : Script ε κ β α} (hbody : Keeps q body) :
    Keeps p (do Script.copy missing p q; Script.tryFinally body (Script.move missing q p)) := by
  intro files
  show (andThen (Script.copy missing p q) _ files).2 p = _
  unfold andThen Script.copy
  cases hfile : files p with
  | none => exact hfile
  | some b =>
    have hcopy : (body (Function.update files q (some b))).2 q = some b := by
      rw [hbody, Function.update_self]
    show (Script.tryFinally body (Script.move missing q p) (Function.update files q (some b))).2 p = _
    unfold Script.tryFinally Script.move
    rw [hcopy]
    exact Function.update_self p _ _

end Keeps

/-! ## 2. Triples -/

/-- From `P`, the script returns with `Q` or raises with `E`. -/
def Triple (P : Files κ β → Prop) (s : Script ε κ β α) (Q : α → Files κ β → Prop)
    (E : Files κ β → Prop) : Prop :=
  ∀ files, P files → (∀ a, (s files).1 = .ok a → Q a (s files).2) ∧
    ∀ e, (s files).1 = .error e → E (s files).2

namespace Triple

variable {P P' : Files κ β → Prop} {Q Q' : α → Files κ β → Prop} {E : Files κ β → Prop}

theorem pure {a : α} (h : ∀ files, P files → Q a files) :
    Triple P (pure a : Script ε κ β α) Q E := by
  intro files hP
  refine ⟨fun b hb => ?_, fun e he => ?_⟩
  · cases hb
    exact h files hP
  · cases he

theorem raise {e : ε} (h : ∀ files, P files → E files) :
    Triple P (raise e : Script ε κ β α) Q E := by
  intro files hP
  refine ⟨fun _ ha => ?_, fun _ _ => h files hP⟩
  cases ha

theorem bind {s : Script ε κ β α} {f : α → Script ε κ β γ} {R : γ → Files κ β → Prop}
    (hs : Triple P s Q E) (hf : ∀ a, Triple (Q a) (f a) R E) : Triple P (s >>= f) R E := by
  intro files hP
  have hs' := hs files hP
  show (∀ c, (andThen s f files).1 = .ok c → R c (andThen s f files).2) ∧
    ∀ e, (andThen s f files).1 = .error e → E (andThen s f files).2
  unfold andThen
  cases heq : s files with
  | mk outcome files' =>
    rw [heq] at hs'
    cases outcome with
    | ok a => exact hf a files' (hs'.1 a rfl)
    | error e =>
      refine ⟨fun _ hc => ?_, fun _ _ => hs'.2 e rfl⟩
      cases hc

/-- From a store that is known, a script does what it does. -/
theorem exact (s : Script ε κ β α) (before : Files κ β) :
    Triple (fun files => files = before) s (fun a files => s before = (.ok a, files))
      fun files => ∃ e, s before = (.error e, files) := by
  rintro files rfl
  exact ⟨fun a ha => Prod.ext ha rfl, fun e he => ⟨e, Prod.ext he rfl⟩⟩

/-- The stores of the precondition one by one. -/
theorem from_each {s : Script ε κ β α}
    (h : ∀ files, P files → Triple (fun files' => files' = files) s Q E) : Triple P s Q E :=
  fun files hP => h files hP files rfl

theorem weaken {E' : Files κ β → Prop} {s : Script ε κ β α} (hs : Triple P s Q E)
    (hP : ∀ files, P' files → P files) (hQ : ∀ a files, Q a files → Q' a files)
    (hE : ∀ files, E files → E' files) : Triple P' s Q' E' := by
  intro files hfiles
  obtain ⟨hok, herror⟩ := hs files (hP files hfiles)
  exact ⟨fun a ha => hQ a _ (hok a ha), fun e he => hE _ (herror e he)⟩

theorem read {missing : κ → ε} (p : κ) (hE : ∀ files, P files → files p = none → E files) :
    Triple P (read missing p : Script ε κ β β) (fun b files => files p = some b ∧ P files) E := by
  intro files hP
  unfold Script.read
  cases hfile : files p with
  | some b =>
    refine ⟨fun b' hb => ?_, fun _ he => ?_⟩
    · cases hb
      exact ⟨hfile, hP⟩
    · cases he
  | none =>
    refine ⟨fun _ hb => ?_, fun _ _ => hE files hP hfile⟩
    cases hb

theorem write [DecidableEq κ] {p : κ} {b : β} {R : Files κ β → Prop}
    (h : ∀ files, P files → R (Function.update files p (some b))) :
    Triple P (write p b : Script ε κ β Unit) (fun _ files => R files) E := by
  intro files hP
  refine ⟨fun _ _ => h files hP, fun _ he => ?_⟩
  cases he

/-- What a script leaves as it is holds at both ends. -/
theorem frame {s : Script ε κ β α} {I : Files κ β → Prop} (hs : Triple P s Q fun _ => True)
    (h : ∀ files, I files → I (s files).2) :
    Triple (fun files => P files ∧ I files) s (fun a files => Q a files ∧ I files) I :=
  fun files hI => ⟨fun a ha => ⟨(hs files hI.1).1 a ha, h files hI.2⟩, fun _ _ => h files hI.2⟩

/-- A fact that is not about the store. -/
theorem of_imp {s : Script ε κ β α} {φ : Prop} (h : φ → Triple P s Q E) :
    Triple (fun files => φ ∧ P files) s Q E :=
  fun files hP => h hP.1 files hP.2

theorem returns {s : Script ε κ β α} {R : α → Prop} (hs : Triple P s Q E) (hr : Returns R s) :
    Triple P s (fun a files => R a ∧ Q a files) E :=
  fun files hP => ⟨fun a ha => ⟨hr files a ha, (hs files hP).1 a ha⟩, (hs files hP).2⟩

/-- **Loop rule.**  The invariant speaks of the elements already processed. -/
theorem foldlM {δ : Type} {f : α → δ → Script ε κ β α} {I : List δ → α → Files κ β → Prop}
    (xs : List δ) (a : α) (hstep : ∀ done x rest, xs = done ++ x :: rest → ∀ a,
      Triple (I done a) (f a x) (I (done ++ [x])) E) :
    Triple (I [] a) (xs.foldlM f a) (I xs) E := by
  have hloop (rest : List δ) : ∀ done, xs = done ++ rest → ∀ a,
      Triple (I done a) (rest.foldlM f a) (I xs) E := by
    induction rest with
    | nil =>
      intro done hdone a
      rw [List.append_nil] at hdone
      subst hdone
      exact .pure fun _ h => h
    | cons x rest ih =>
      intro done hdone a
      rw [List.foldlM_cons]
      refine .bind (hstep done x rest hdone a) fun b => ih (done ++ [x]) ?_ b
      rw [hdone, List.append_assoc, List.singleton_append]
  exact hloop xs [] rfl a

end Triple

/-- A loop runs to its end or stops at an element that raises; the invariant is asked of the steps that
return. -/
theorem foldlM_ends {δ : Type} {f : α → δ → Script ε κ β α} {I : List δ → α → Files κ β → Prop}
    (xs : List δ) (a : α) (hstep : ∀ done x rest, xs = done ++ x :: rest → ∀ a files,
      I done a files → ∀ b, (f a x files).1 = .ok b → I (done ++ [x]) b (f a x files).2)
    (files : Files κ β) (h : I [] a files) :
    (∀ b, (xs.foldlM f a files).1 = .ok b → I xs b (xs.foldlM f a files).2) ∧
    ∀ e, (xs.foldlM f a files).1 = .error e → ∃ done x rest b files', xs = done ++ x :: rest ∧
      I done b files' ∧ f b x files' = (.error e, (xs.foldlM f a files).2) := by
  have hloop (rest : List δ) : ∀ done, xs = done ++ rest → ∀ a files, I done a files →
      (∀ b, (rest.foldlM f a files).1 = .ok b → I xs b (rest.foldlM f a files).2) ∧
      ∀ e, (rest.foldlM f a files).1 = .error e → ∃ done x rest' b files', xs = done ++ x :: rest' ∧
        I done b files' ∧ f b x files' = (.error e, (rest.foldlM f a files).2) := by
    induction rest with
    | nil =>
      intro done hdone a files hI
      rw [List.append_nil] at hdone
      subst hdone
      refine ⟨fun b hb => ?_, fun e he => ?_⟩
      · cases hb
        exact hI
      · cases he
    | cons x rest ih =>
      intro done hdone a files hI
      have hnext := hstep done x rest hdone a files hI
      have hfold : (x :: rest).foldlM f a files = andThen (f a x) (fun b => rest.foldlM f b) files := by
        rw [List.foldlM_cons]
        rfl
      rw [hfold, andThen]
      cases hx : f a x files with
      | mk outcome files' =>
        rw [hx] at hnext
        cases outcome with
        | ok b =>
          refine ih (done ++ [x]) ?_ b files' (hnext b rfl)
          rw [hdone, List.append_assoc, List.singleton_append]
        | error e =>
          refine ⟨fun b hb => ?_, fun e' he => ?_⟩
          · cases hb
          · cases he
            exact ⟨done, x, rest, a, files, hdone, hI, hx⟩
  exact hloop xs [] rfl a files h

/-! ## 3. Memo files -/

/-- A file that is there is read, and generated otherwise. -/
def memo (decode : β → α) (k : κ) (generate : Script ε κ β α) : Script ε κ β α := fun files =>
  match files k with
  | some b => (.ok (decode b), files)
  | none => generate files

/-- Every file is one that the specification allows. -/
def Sound (spec : κ → β → Prop) (files : Files κ β) : Prop := ∀ k b, files k = some b → spec k b

section Memo

variable {spec : κ → β → Prop} {R : α → Prop} {decode : β → α} {k : κ} {generate : Script ε κ β α}

theorem Sound.update [DecidableEq κ] {files : Files κ β} (h : Sound spec files) {b : β}
    (hb : spec k b) : Sound spec (Function.update files k (some b)) := by
  intro k' b' hfile
  by_cases hk : k' = k
  · subst hk
    rw [Function.update_self] at hfile
    exact Option.some.inj hfile ▸ hb
  · rw [Function.update_of_ne hk] at hfile
    exact h k' b' hfile

/-- What an old file gives is allowed, and so is what a new one gives. -/
theorem Triple.memo
    (hgenerate : Triple (Sound spec) generate (fun a files => R a ∧ Sound spec files) (Sound spec))
    (hdecode : ∀ b, spec k b → R (decode b)) :
    Triple (Sound spec) (memo decode k generate) (fun a files => R a ∧ Sound spec files)
      (Sound spec) := by
  intro files hsound
  unfold Script.memo
  cases hfile : files k with
  | some b =>
    refine ⟨fun a ha => ?_, fun e he => ?_⟩
    · cases ha
      exact ⟨hdecode b (hsound k b hfile), hsound⟩
    · cases he
  | none => exact hgenerate files hsound

end Memo

end Script

end LinuxAnalysis.Lib
