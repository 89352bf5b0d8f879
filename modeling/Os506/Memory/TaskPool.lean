import Os506.Lib.Pool
import Os506.Lib.Run

namespace Os506.TaskPool

open Bytes Linked Pool

inductive Kind
  | task
  | mm
  | vma
  | file
  | dirent
  deriving DecidableEq

def shape : Kind → Shape
  | .task => ⟨608, 128, by decide, by decide⟩
  | .mm => ⟨112, 24, by decide, by decide⟩
  | .vma => ⟨48, 40, by decide, by decide⟩
  | .file => ⟨56, 40, by decide, by decide⟩
  | .dirent => ⟨288, 24, by decide, by decide⟩

-- The argument `ptr` is the page that `kmalloc` returns when it is called.

def reloadTaskStruct (ptr : ℕ) : Pools Kind → Pools Kind := reload shape .task ptr

def reloadMmStruct (ptr : ℕ) : Pools Kind → Pools Kind := reload shape .mm ptr

def reloadVmaStruct (ptr : ℕ) : Pools Kind → Pools Kind := reload shape .vma ptr

def reloadFileStruct (ptr : ℕ) : Pools Kind → Pools Kind := reload shape .file ptr

def reloadDirentStruct (ptr : ℕ) : Pools Kind → Pools Kind := reload shape .dirent ptr

def getTaskStruct (ptr : ℕ) : Pools Kind → Except String (ℕ × Pools Kind) :=
  get shape .task "task_struct alloc failed" (reloadTaskStruct ptr)

def getMmStruct (ptr : ℕ) : Pools Kind → Except String (ℕ × Pools Kind) :=
  get shape .mm "mm_struct alloc failed" (reloadMmStruct ptr)

def getVmaStruct (ptr : ℕ) : Pools Kind → Except String (ℕ × Pools Kind) :=
  get shape .vma "vma_struct alloc failed" (reloadVmaStruct ptr)

def getFileStruct (ptr : ℕ) : Pools Kind → Except String (ℕ × Pools Kind) :=
  get shape .file "file_struct alloc failed" (reloadFileStruct ptr)

def getDirentStruct (ptr : ℕ) : Pools Kind → Except String (ℕ × Pools Kind) :=
  get shape .dirent "dirent_struct alloc failed" (reloadDirentStruct ptr)

def releaseTaskStruct : ℕ → Pools Kind → Pools Kind := release shape .task

def releaseMmStruct : ℕ → Pools Kind → Pools Kind := release shape .mm

def releaseVmaStruct : ℕ → Pools Kind → Pools Kind := release shape .vma

def releaseFileStruct : ℕ → Pools Kind → Pools Kind := release shape .file

def releaseDirentStruct : ℕ → Pools Kind → Pools Kind := release shape .dirent

def getStruct : Kind → ℕ → Pools Kind → Except String (ℕ × Pools Kind)
  | .task => getTaskStruct
  | .mm => getMmStruct
  | .vma => getVmaStruct
  | .file => getFileStruct
  | .dirent => getDirentStruct

def releaseStruct : Kind → ℕ → Pools Kind → Pools Kind
  | .task => releaseTaskStruct
  | .mm => releaseMmStruct
  | .vma => releaseVmaStruct
  | .file => releaseFileStruct
  | .dirent => releaseDirentStruct

inductive Op
  | get (k : Kind) (page : ℕ)
  | release (k : Kind) (p : ℕ)
  | write (x : Kind × ℕ) (i : ℕ) (b : UInt8)

def Op.step : Op → Pools Kind → Option (Pools Kind)
  | .get k page, s => match getStruct k page s with
    | .ok (_, t) => some t
    | .error _ => none -- `panic` does not return
  | .release k p, s => some (releaseStruct k p s)
  | .write x i b, s => some { s with mem := Function.update s.mem (x.2 + i) b }

def Op.Allowed : Op → Pools Kind → Prop
  | .get k page, s => s.head k = 0 → Fresh page s
  | .release k p, s => (k, p) ∈ s.out
  | .write x i _, s => x ∈ s.out ∧ i < (shape x.1).size

def start (mem : ℕ → UInt8) : Pools Kind := ⟨mem, fun _ => 0, [], []⟩

structure Sound (s : Pools Kind) : Prop where
  inside : ∀ x ∈ s.out, ∃ page ∈ s.pages, Inside shape x page
  apart : s.out.Pairwise (Apart shape)
  lists : ∀ k, ∃ l, Chain (next (shape k) s.mem) (pointer (s.head k)) l ∧ l.Nodup ∧
    ∀ p ∈ l, ∀ x ∈ s.out, Apart shape (k, p) x
  returns : ∀ k page, (s.head k = 0 → page ≠ 0) → ∃ p t, getStruct k page s = .ok (p, t)
  zero : ∀ k page p t, (s.head k = 0 → Fresh page s) → getStruct k page s = .ok (p, t) →
    At t.mem p (List.replicate (shape k).size 0) ∧ t.out = (k, p) :: s.out

theorem getStruct_eq (k : Kind) : ∃ msg, ∀ page, getStruct k page = get shape k msg (reload shape k page) := by
  cases k <;> exact ⟨_, fun _ => rfl⟩

theorem releaseStruct_eq (k : Kind) : releaseStruct k = release shape k := by
  cases k <;> rfl

variable {free : Kind → List ℕ} {s t : Pools Kind}

theorem step_inv {op : Op} (h : Inv shape free s) (hop : op.Allowed s) (hs : op.step s = some t) :
    ∃ free', Inv shape free' t := by
  cases op with
  | get k page =>
    obtain ⟨msg, hmsg⟩ := getStruct_eq k
    rw [Op.step, hmsg] at hs
    split at hs
    · rename_i p u hget
      obtain rfl := Option.some.inj hs
      obtain ⟨free', hinv, _⟩ := h.get hop hget
      exact ⟨free', hinv⟩
    · cases hs
  | release k p =>
    obtain rfl := Option.some.inj hs
    rw [releaseStruct_eq]
    exact ⟨_, h.release hop⟩
  | write x i b =>
    obtain rfl := Option.some.inj hs
    refine ⟨free, h.write hop.1 fun a ha => Function.update_of_ne ?_ _ _⟩
    have := hop.2
    omega

theorem sound_of_inv (h : Inv shape free s) : Sound s where
  inside x hx := h.inside x (.inl hx)
  apart := h.nodup.pairwise_of_forall_ne fun x hx y hy => h.apart x y (.inl hx) (.inl hy)
  lists k := ⟨free k, h.chain k, chain_nodup (h.chain k), fun p hp x hx =>
    h.apart (k, p) x (.inr hp) (.inl hx) fun he => h.away k p hp (he ▸ hx)⟩
  returns k page hpage := by
    obtain ⟨msg, hmsg⟩ := getStruct_eq k
    rw [hmsg]
    exact get_ok hpage
  zero k page p t hpage hget := by
    obtain ⟨msg, hmsg⟩ := getStruct_eq k
    rw [hmsg] at hget
    obtain ⟨_, _, hzero, hout⟩ := h.get hpage hget
    exact ⟨hzero, hout⟩

theorem start_inv (mem : ℕ → UInt8) : Inv shape (fun _ => []) (start mem) where
  chain _ := rfl
  away _ _ hp := absurd hp List.not_mem_nil
  nodup := List.nodup_nil
  apart x _ hx := by rcases hx with hx | hx <;> cases hx
  inside x hx := by rcases hx with hx | hx <;> cases hx
  pages _ hp := absurd hp List.not_mem_nil

theorem pools_sound (mem : ℕ → UInt8) (ops : List Op) (h : Run.Meets Op.step Op.Allowed (start mem) ops) :
    Run.Along Op.step Sound (start mem) ops := by
  have hrun : Run.Along Op.step (fun s => ∃ free, Inv shape free s) (start mem) ops := by
    apply Run.along_of_step (C := Op.Allowed) _ ⟨_, start_inv mem⟩ h
    rintro op s t ⟨free, hinv⟩ hop hs
    exact step_inv hinv hop hs
  exact Run.along_mono (fun s ⟨_, hinv⟩ => sound_of_inv hinv) hrun

instance (page : ℕ) (s : Pools Kind) : Decidable (Fresh page s) :=
  decidable_of_iff (page % 4096 = 0 ∧ page < 2 ^ 64 ∧ page ∉ s.pages)
    ⟨fun ⟨h, h', h''⟩ => ⟨h, h', h''⟩, fun ⟨h, h', h''⟩ => ⟨h, h', h''⟩⟩

instance : (op : Op) → (s : Pools Kind) → Decidable (op.Allowed s)
  | .get k page, s => inferInstanceAs (Decidable (s.head k = 0 → Fresh page s))
  | .release k p, s => inferInstanceAs (Decidable ((k, p) ∈ s.out))
  | .write x i _, s => inferInstanceAs (Decidable (x ∈ s.out ∧ i < (shape x.1).size))

theorem pools_sound_small : Run.Along Op.step Sound (start fun _ => 1)
    [.get .file 0x1000, .get .task 0x2000, .write (.file, 0x1000) 40 7, .release .file 0x1000, .get .file 0, .get .file 0] := by
  apply pools_sound
  exact Run.meets_of_check (c := fun op s => decide (op.Allowed s)) (fun _ _ => of_decide_eq_true) (by decide +kernel)

end Os506.TaskPool
