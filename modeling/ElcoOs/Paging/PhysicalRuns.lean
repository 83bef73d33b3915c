import ElcoOs.Paging.Conserved
import ElcoOs.Paging.Mirror

/-!
# Runs in physical memory

From what `boot.S` leaves behind, and with frames in which there is no table,
the page stack is a list and no frame is lost. A frame in which there is one is
no free frame: once it holds the page stack, the stack writes over the table.
-/

namespace ElcoOs.Paging

open Word32

/-- A directory whose last entry shows itself, tables in frames of their own, and
a window without pages. -/
structure Booted (p : Phys) : Prop where
  align : p.cr3 % 4096 = 0
  word : p.cr3 < 4294967296
  recursive : p.ram (p.cr3 + 4 * 1023) = p.cr3 + 3
  apart : ∀ t < 1024, ∀ t' < 1024, p.view.HasTable t → p.view.HasTable t' →
    p.view.tableFrame t = p.view.tableFrame t' → t = t'
  blank : Blank p.view

variable {p p₀ p' : Phys} {s s₀ s' : State} {fs l initial hand alloc : List Nat} {f n t v : Nat}

theorem Booted.mirrors (h : Booted p) : Mirrors p p.view :=
  ⟨h.align, h.word, h.recursive, h.apart, rfl, fun _ _ => rfl, fun _ _ _ _ _ => rfl, fun _ _ => rfl⟩

theorem Mirrors.tableFrame (h : Mirrors p s) (ht : t < 1024) :
    p.view.tableFrame t = s.tableFrame t := by
  rw [State.tableFrame, State.tableFrame, ← h.ptable t ht]
  rfl

theorem Mirrors.spare (h : Mirrors p s) : p.view.Spare f ↔ s.Spare f := by
  refine forall_congr' fun t => forall_congr' fun ht => ?_
  rw [h.view_table ht, h.tableFrame ht]

-- ---------------------------------------------------------------------------
-- Last in, first out
-- ---------------------------------------------------------------------------

inductive StackAction where
  | push (frame : Nat)
  | pop

def stackStep (x : Phys × List Nat) : StackAction → Option (Phys × List Nat)
  | .push frame => (x.1.pstackPush frame).map fun r => (r.2, frame :: x.2)
  | .pop => x.1.pstackPop.map fun r => (r.2, x.2.tail)

/-- What is pushed is `Fresh`, and `ok`. -/
def StackMay (ok : Phys → Nat → Prop) (x : Phys × List Nat) : StackAction → Phys × List Nat → Prop
  | .push frame, _ => Fresh x.2 frame ∧ ok x.1 frame
  | .pop, _ => True

def StackRun (ok : Phys → Nat → Prop) (x : Phys × List Nat) : Prop :=
  Reach (fun x => Booted x.1 ∧ x.2 = []) stackStep (StackMay ok) x

def Phys.Spare (p : Phys) (f : Nat) : Prop := p.view.Spare f

theorem Fresh.reverse (h : Fresh l f) : Fresh l.reverse f :=
  ⟨h.1, h.2.1, fun hm => h.2.2 (List.mem_reverse.mp hm)⟩

theorem StackRun.pstack (h : StackRun Phys.Spare (p, l)) :
    ∃ s, Mirrors p s ∧ Pstack s l.reverse ∧ ∀ f ∈ l.reverse, s.Spare f := by
  refine Reach.invariant
    (p := fun x => ∃ s, Mirrors x.1 s ∧ Pstack s x.2.reverse ∧ ∀ f ∈ x.2.reverse, s.Spare f) ?_ ?_ h
  · rintro ⟨p, l⟩ ⟨hboot, hl⟩
    obtain rfl : l = [] := hl
    exact ⟨p.view, hboot.mirrors, hboot.blank.pstack, fun f hf => absurd hf List.not_mem_nil⟩
  · rintro ⟨p, l⟩ a ⟨p', l'⟩ ⟨s, hmir, hok, hsp⟩ hstep hmay
    cases a with
    | push frame =>
      obtain ⟨hfresh, hspare⟩ : Fresh l frame ∧ p.Spare frame := hmay
      obtain ⟨s', hpush, hok', hsame⟩ := hok.push (hfresh.reverse.frames hok.frames)
      obtain ⟨p₁, hpush', hmir'⟩ := hmir.push hok hsp hpush
      simp only [stackStep, hpush', Option.map_some, Option.some.injEq, Prod.mk.injEq] at hstep
      obtain ⟨rfl, rfl⟩ := hstep
      refine ⟨s', hmir', by simpa using hok', fun f hf => (spare_congr hsame.ptable).mpr ?_⟩
      rw [List.reverse_cons] at hf
      rcases List.mem_append.mp hf with hf | hf
      · exact hsp f hf
      · obtain rfl := List.mem_singleton.mp hf
        exact hmir.spare.mp hspare
    | pop =>
      cases l with
      | nil =>
        obtain ⟨p₁, hpop, hmir'⟩ := hmir.pop hok hsp hok.pop_nil
        simp only [stackStep, hpop, Option.map_some, Option.some.injEq, Prod.mk.injEq] at hstep
        obtain ⟨rfl, rfl⟩ := hstep
        exact ⟨s, hmir', hok, hsp⟩
      | cons f l =>
        simp only [List.reverse_cons] at hok hsp
        obtain ⟨s', hpop, hok', hsame, -⟩ := hok.pop
        obtain ⟨p₁, hpop', hmir'⟩ := hmir.pop hok hsp hpop
        simp only [stackStep, hpop', Option.map_some, Option.some.injEq, Prod.mk.injEq] at hstep
        obtain ⟨rfl, rfl⟩ := hstep
        exact ⟨s', hmir', hok',
          fun f hf => (spare_congr hsame.ptable).mpr (hsp f (List.mem_append_left _ hf))⟩

theorem Mirrors.pop_nil (h : Mirrors p s) (hok : Pstack s []) : p.pstackPop = some (none, p) := by
  have hptr : s.pstackPointer = 0xFFC00000 := hok.pointer
  have hunmapped : ¬ s.pageIsMapped (sub s.pstackPointer 1) := by
    obtain ⟨hpde, hpte⟩ := below_table (q := 0) (by decide)
    rw [hptr, show sub 0xFFC00000 1 = 0xFFC00000 - 4096 * 0 - 1 from rfl,
      State.pageIsMapped, hpde, hpte]
    rintro ⟨-, hlarge | hpresent⟩
    · exact hok.small hlarge
    · exact hok.unmapped 0 (Nat.zero_le _) (by decide) hpresent
  rw [Phys.pstackPop, h.mappedBelow hok, decide_eq_false hunmapped, h.pointer, hptr]
  rfl

/-- In every state of a run, a push returns zero and a pop after it undoes it,
and a pop returns the frame that was pushed last, or fails and changes nothing
when there is none. -/
theorem pstack_lifo (h : StackRun Phys.Spare (p, l)) :
    (∀ f, Fresh l f → p.Spare f → ∃ p' p'', p.pstackPush f = some (0, p') ∧
    p'.pstackPop = some (some f, p'') ∧
      p''.pstackPointer = p.pstackPointer ∧ SameWindow p.view p''.view ∧
      SameStored p.view p''.view) ∧
    ∃ p', p.pstackPop = some (l.head?, p') ∧ (l = [] → p' = p) := by
  obtain ⟨s, hmir, hok, hsp⟩ := h.pstack
  refine ⟨fun f hf hspare => ?_, ?_⟩
  · obtain ⟨s', s'', hpush, hpop, hok', hptr, hwindow, hstored⟩ :=
      hok.push_pop (hf.reverse.frames hok.frames)
    obtain ⟨s₁, hpush₁, -, hsame⟩ := hok.push (hf.reverse.frames hok.frames)
    obtain rfl : s₁ = s' := by
      rw [hpush, Option.some.injEq, Prod.mk.injEq] at hpush₁
      exact hpush₁.2.symm
    obtain ⟨s₂, hpop₂, hok'', hsame', -⟩ := hok'.pop
    obtain rfl : s₂ = s'' := by
      rw [hpop, Option.some.injEq, Prod.mk.injEq] at hpop₂
      exact hpop₂.2.symm
    have hsp' : ∀ g ∈ l.reverse ++ [f], s₁.Spare g := fun g hg => by
      refine (spare_congr hsame.ptable).mpr ?_
      rcases List.mem_append.mp hg with hg | hg
      · exact hsp g hg
      · obtain rfl := List.mem_singleton.mp hg
        exact hmir.spare.mp hspare
    obtain ⟨p', hpush', hmir'⟩ := hmir.push hok hsp hpush
    obtain ⟨p'', hpop', hmir''⟩ := hmir'.pop hok' hsp' hpop
    have hsp'' : ∀ g ∈ l.reverse, s₂.Spare g := fun g hg =>
      (spare_congr hsame'.ptable).mpr (hsp' g (List.mem_append_left _ hg))
    refine ⟨p', p'', hpush', hpop', ?_, fun v hlo hhi => ?_, fun v hlo hhi => ?_⟩
    · rw [hmir''.pointer, hptr, hmir.pointer]
    · rw [hmir''.translate hhi, hwindow v hlo hhi, hmir.translate hhi]
    · have hlo' : s.pstackPointer ≤ v := hmir.pointer ▸ hlo
      have hbottom := Nat.le_of_lt (Nat.lt_of_lt_of_le hok.pointer_bounds.1 hlo')
      have hold := hmir.load hhi fun a ha => hok.outside hsp hbottom hhi ha
      have hnew := hmir''.load hhi fun a ha => hok''.outside hsp'' hbottom hhi ha
      exact hnew.trans ((hstored v hlo' hhi).trans hold.symm)
  · cases l with
    | nil => exact ⟨p, hmir.pop_nil hok, fun _ => rfl⟩
    | cons f l =>
      rw [List.reverse_cons] at hok hsp
      obtain ⟨s', hpop, -⟩ := hok.pop
      obtain ⟨p', hpop', -⟩ := hmir.pop hok hsp hpop
      exact ⟨p', hpop', fun he => absurd he (List.cons_ne_nil _ _)⟩

/-- The directory at 0x1000 with the table of the window at 0x2000 and that of the
kernel, which is empty here, at 0x3000. -/
def bootPhys : Phys where
  ram a :=
    if a = 0x1000 + 4 * 768 then 0x3003
    else if a = 0x1000 + 4 * 1022 then 0x2003
    else if a = 0x1000 + 4 * 1023 then 0x1003
    else 0
  cr3 := 0x1000
  pstackPointer := kernelPstackTop

theorem bootPhys_table {t : Nat} (h : bootPhys.view.HasTable t) : t = 768 ∨
    t = 1022 ∨ t = 1023 := by
  by_contra hno
  refine h.2 ?_
  have hzero : bootPhys.view.ptable t = 0 := by
    simp only [Phys.view, bootPhys]
    rw [if_neg (by omega), if_neg (by omega), if_neg (by omega)]
  rw [hzero]
  rfl

theorem bootPhys_booted : Booted bootPhys where
  align := rfl
  word := by decide
  recursive := by decide
  apart t _ t' _ hset hset' he := by
    rcases bootPhys_table hset with rfl | rfl | rfl <;> rcases bootPhys_table hset' with
      rfl | rfl | rfl
    all_goals first
      | rfl
      | exact absurd he (by decide)
  blank :=
    { present := by decide
      small := by decide
      pointer := rfl
      unmapped := fun i hi => by
        have hzero : bootPhys.view.entry 1022 i = 0 := by
          show bootPhys.ram (0x2000 + 4 * i) = 0
          simp only [bootPhys]
          rw [if_neg (by omega), if_neg (by omega), if_neg (by omega)]
        rw [State.EntryPresent, hzero]
        simp }

instance (p : Phys) (f : Nat) : Decidable (p.Spare f) :=
  decidable_of_iff (∀ t < 1024, p.view.HasTable t → p.view.tableFrame t ≠ f)
    ⟨fun h t ht hset => h t ht hset, fun h t ht hset => h t ht hset⟩

def Phys.pushed (p : Phys) (frame : Nat) : Phys := ((p.pstackPush frame).map Prod.snd).getD p

theorem StackRun.push {ok : Phys → Nat → Prop} (h : StackRun ok (p, l))
    (hf : Fresh l f) (hok : ok p f)
    (hsome : (p.pstackPush f).isSome) : StackRun ok (p.pushed f, f :: l) := by
  obtain ⟨r, hr⟩ := Option.isSome_iff_exists.mp hsome
  refine h.step (a := .push f) ?_ ⟨hf, hok⟩
  simp only [stackStep, Phys.pushed, hr, Option.map_some, Option.getD_some]

theorem pstack_lifo_bootPhys : ∃ p₁ p₂ p₃ p₄ : Phys,
    bootPhys.pstackPush 0x5000 = some (0, p₁) ∧ p₁.pstackPush 0x6000 = some (0, p₂) ∧
      p₂.pstackPop = some (some 0x6000, p₃) ∧ p₃.pstackPop = some (some 0x5000, p₄) ∧
      p₄.pstackPop = some (none, p₄) := by
  have h₀ : StackRun Phys.Spare (bootPhys, []) := .start ⟨bootPhys_booted, rfl⟩
  have hf₁ : Fresh [] 0x5000 := ⟨rfl, by decide, by decide⟩
  have hf₂ : Fresh [0x5000] 0x6000 := ⟨rfl, by decide, by decide⟩
  have h₁ := h₀.push hf₁ (by decide +kernel) (by decide +kernel)
  have h₂ := h₁.push hf₂ (by decide +kernel) (by decide +kernel)
  obtain ⟨p₁, -, hpush₁, -⟩ := (pstack_lifo h₀).1 0x5000 hf₁ (by decide +kernel)
  obtain ⟨p₂, -, hpush₂, -⟩ := (pstack_lifo h₁).1 0x6000 hf₂ (by decide +kernel)
  obtain rfl : p₁ = bootPhys.pushed 0x5000 := by rw [Phys.pushed, hpush₁]; rfl
  obtain rfl : p₂ = (bootPhys.pushed 0x5000).pushed 0x6000 := by rw [Phys.pushed, hpush₂]; rfl
  obtain ⟨p₃, hpop₃, -⟩ := (pstack_lifo h₂).2
  have h₃ : StackRun Phys.Spare (p₃, [0x5000]) :=
    h₂.step (a := .pop) (by rw [stackStep, hpop₃]; rfl) trivial
  obtain ⟨p₄, hpop₄, -⟩ := (pstack_lifo h₃).2
  have h₄ : StackRun Phys.Spare (p₄, []) :=
    h₃.step (a := .pop) (by rw [stackStep, hpop₄]; rfl) trivial
  obtain ⟨p₅, hpop₅, hsame⟩ := (pstack_lifo h₄).2
  obtain rfl := hsame rfl
  exact ⟨_, _, p₃, p₅, hpush₁, hpush₂, hpop₃, hpop₄, hpop₅⟩

/-- The table of the window as the first page of the stack: what is pushed next is
stored in the entry that maps it. -/
theorem pstack_lifo_own_table :
    ¬∀ p l, StackRun (fun _ _ => True) (p, l) → ∃ p', p.pstackPop = some (l.head?, p') := by
  intro hall
  have h₀ : StackRun (fun _ _ => True) (bootPhys, []) := .start ⟨bootPhys_booted, rfl⟩
  have h₁ := h₀.push (f := 0x2000) ⟨rfl, by decide, by decide⟩ trivial (by decide +kernel)
  have h₂ := h₁.push (f := 0x5000) ⟨rfl, by decide, by decide⟩ trivial (by decide +kernel)
  obtain ⟨p', hpop⟩ := hall _ _ h₂
  have hnone : ((bootPhys.pushed 0x2000).pushed 0x5000).pstackPop.isNone := by decide +kernel
  rw [hpop] at hnone
  cases hnone

-- ---------------------------------------------------------------------------
-- Conservation
-- ---------------------------------------------------------------------------

structure PhysLedger where
  phys : Phys
  /-- the numbers of the pages that `memory_allocate_page` mapped -/
  alloc : List Nat
  /-- the frames of such pages that `memory_unmap_addr` unmapped -/
  lost : List Nat

def PhysLedger.ledger (x : PhysLedger) : Ledger := ⟨x.phys.view, x.alloc, x.lost⟩

def physStep (x : PhysLedger) : PageAction → Option PhysLedger
  | .allocate v u w => (x.phys.memoryAllocatePage v u w).map fun r =>
      { x with phys := r.2, alloc := if r.1 = 0 then v / 4096 :: x.alloc else x.alloc }
  | .free v => (x.phys.memoryFreePage v).map fun r =>
      { x with phys := r.2, alloc := if r.1 = 0 then x.alloc.erase (v / 4096) else x.alloc }
  | .map v frame u w => (x.phys.memoryMapAddr v frame u w).map fun r => { x with phys := r.2 }
  | .unmap v => (x.phys.memoryUnmapAddr v).map fun r => {
        phys := r.2
        alloc := x.alloc.erase (v / 4096)
        lost := if v / 4096 ∈ x.alloc then x.phys.view.frameAt (v / 4096) :: x.lost else x.lost }

def Phys.pushAll (p : Phys) (frames : List Nat) : Option Phys :=
  frames.foldlM (fun p frame => (p.pstackPush frame).map Prod.snd) p

def Pushed (p₀ : Phys) (initial : List Nat) (x : PhysLedger) : Prop :=
  p₀.pushAll initial = some x.phys ∧ x.alloc = [] ∧ x.lost = []

def PageAction.OnFrames : PageAction → Prop
  | .allocate .. => True
  | .free .. => True
  | _ => False

/-- Runs of `memory_allocate_page` and `memory_free_page` after the initial frames are pushed. -/
def FrameRun (p₀ : Phys) (initial : List Nat) (x : PhysLedger) : Prop :=
  Reach (Pushed p₀ initial) physStep (fun x a y => PageMay x.ledger a y.ledger ∧ a.OnFrames) x

/-- A run over tables of their own goes beside it, with its balance. -/
structure Balanced (p₀ : Phys) (initial : List Nat) (x : PhysLedger) (s : State)
    (fs : List Nat) : Prop where
  mirrors : Mirrors x.phys s
  balance : Balance p₀.view initial s x.alloc fs x.lost

variable {x y : PhysLedger} {a : PageAction}

/-- The frames of the stack stay out of all tables, those that were there and the new ones. -/
theorem Balance.spare (h : Balance s₀ initial s alloc fs hand) (hf : Frames initial)
    (hsp : ∀ f ∈ initial, s₀.Spare f) :
    ∀ f ∈ fs, s.Spare f := by
  intro f hfs t ht hset he
  by_cases hold : s₀.HasTable t ∨ 1022 ≤ t
  · have hkept := h.kept t hold
    refine hsp f (h.perm.mem_iff.mp (List.mem_append_left _ hfs)) t ht
      ((hasTable_congr hkept).mp hset) ?_
    rw [State.tableFrame, ← hkept]
    exact he
  · rw [not_or, Nat.not_le] at hold
    have hnew : t ∈ newTables s₀ s := by simp [newTables, hold.2, hold.1, hset]
    have hnodup := (hf.perm h.perm.symm).1
    refine List.disjoint_of_nodup_append hnodup hfs
      (List.mem_append_right _ (List.mem_append_left _ ?_))
    exact he ▸ List.mem_map_of_mem hnew

theorem Mirrors.pushAll (h : Mirrors p s) (hok : Pstack s fs) (hf : Frames (fs ++ initial))
    (hsp : ∀ f ∈ fs ++ initial, s.Spare f) (hres : s.pushAll initial = some s') :
    ∃ p', p.pushAll initial = some p' ∧ Mirrors p' s' := by
  induction initial generalizing p s fs with
  | nil =>
    cases hres
    exact ⟨p, rfl, h⟩
  | cons f rest ih =>
    rw [List.append_cons] at hf hsp
    obtain ⟨s₁, hpush, hok₁, hsame⟩ := hok.push (hf.sublist (List.sublist_append_left _ _))
    obtain ⟨p₁, hpush', h₁⟩ := h.push hok (fun g hg => hsp g (by simp [hg])) hpush
    rw [State.pushAll, List.foldlM_cons, hpush] at hres
    obtain ⟨p', hres', h'⟩ :=
      ih h₁ hok₁ hf (fun g hg => (spare_congr hsame.ptable).mpr (hsp g hg)) hres
    refine ⟨p', ?_, h'⟩
    rw [Phys.pushAll, List.foldlM_cons, hpush']
    exact hres'

theorem Pushed.balanced (h : Pushed p₀ initial x) (hb : Booted p₀) (hf : Frames initial)
    (hsp : ∀ f ∈ initial, p₀.Spare f) : ∃ s, Balanced p₀ initial x s initial := by
  obtain ⟨s, hpush, -⟩ := push_all hb.blank.pstack (by rwa [List.nil_append])
  obtain ⟨p', hpush', hmir⟩ :=
    hb.mirrors.pushAll hb.blank.pstack (by rwa [List.nil_append]) hsp hpush
  obtain ⟨hpushed, halloc, hlost⟩ := h
  obtain rfl : p' = x.phys := Option.some.inj (hpush'.symm.trans hpushed)
  have hbegun : Begun p₀.view initial ⟨s, x.alloc, x.lost⟩ := ⟨hpush, halloc, hlost⟩
  exact ⟨s, hmir, hbegun.balance hb.blank hf⟩

theorem Balanced.frameAt (h : Balanced p₀ initial x s fs) (hn : n ∈ x.alloc) :
    x.phys.view.frameAt n = s.frameAt n := by
  obtain ⟨hlow, hpage⟩ := h.balance.mapped n hn
  rw [State.frameAt, State.frameAt, h.mirrors.view_entry (Nat.lt_trans hlow (by decide)),
    h.mirrors.entry _ (Nat.lt_trans hlow (by decide)) hpage.1 _ (Nat.mod_lt _ (by decide))]

theorem Balanced.step (h : Balanced p₀ initial x s fs) (hf : Frames initial)
    (hsp : ∀ f ∈ initial, p₀.Spare f) (hmay : PageMay x.ledger a x.ledger) :
    ∃ y s' fs', physStep x a = some y ∧ Balanced p₀ initial y s' fs' := by
  have hspare := h.balance.spare hf hsp
  have hmay' : PageMay ⟨s, x.alloc, x.lost⟩ a ⟨s, x.alloc, x.lost⟩ := by
    cases a <;> exact hmay
  obtain ⟨y, fs', hstep, hbal⟩ := Balance.step (x := ⟨s, x.alloc, x.lost⟩) h.balance hf hmay'
  obtain ⟨s', alloc', lost'⟩ := y
  cases a with
  | allocate v u w =>
    obtain ⟨⟨r, s₁⟩, hres, hy⟩ := Option.map_eq_some_iff.mp hstep
    cases hy
    obtain ⟨p', hres', hmir⟩ := h.mirrors.memoryAllocatePage h.balance.pstack hspare hmay hres
    exact ⟨_, _, fs', by rw [physStep, hres', Option.map_some], hmir, hbal⟩
  | free v =>
    obtain ⟨⟨r, s₁⟩, hres, hy⟩ := Option.map_eq_some_iff.mp hstep
    cases hy
    obtain ⟨p', hres', hmir⟩ := h.mirrors.memoryFreePage h.balance.pstack hspare hmay.1 hres
    exact ⟨_, _, fs', by rw [physStep, hres', Option.map_some], hmir, hbal⟩
  | map v frame u w =>
    obtain ⟨⟨r, s₁⟩, hres, hy⟩ := Option.map_eq_some_iff.mp hstep
    cases hy
    obtain ⟨p', hres', hmir⟩ := h.mirrors.memoryMapAddr h.balance.pstack hspare hmay hres
    exact ⟨{ x with phys := p' }, _, fs', by rw [physStep, hres', Option.map_some], hmir, hbal⟩
  | unmap v =>
    obtain ⟨p', hres', hmir⟩ := h.mirrors.memoryUnmapAddr (v := v) hmay
    cases hstep
    refine ⟨_, _, fs', by rw [physStep, hres', Option.map_some], hmir, ?_⟩
    by_cases hn : v / 4096 ∈ x.alloc
    · simp only [if_pos hn] at hbal ⊢
      rw [h.frameAt hn]
      exact hbal
    · simp only [if_neg hn] at hbal ⊢
      exact hbal

theorem FrameRun.balanced (h : FrameRun p₀ initial x) (hb : Booted p₀) (hf : Frames initial)
    (hsp : ∀ f ∈ initial, p₀.Spare f) : x.lost = [] ∧ ∃ s fs, Balanced p₀ initial x s fs := by
  refine Reach.invariant (p := fun x => x.lost = [] ∧ ∃ s fs, Balanced p₀ initial x s fs) ?_ ?_ h
  · intro x hx
    obtain ⟨s, hbal⟩ := hx.balanced hb hf hsp
    exact ⟨hx.2.2, s, initial, hbal⟩
  · rintro x a y ⟨hlost, s, fs, hbal⟩ hstep ⟨hmay, hon⟩
    have hmay' : PageMay x.ledger a x.ledger := by
      cases a <;> exact hmay
    obtain ⟨y', s', fs', hres, hbal'⟩ := hbal.step hf hsp hmay'
    rw [hstep, Option.some.injEq] at hres
    obtain rfl := hres
    refine ⟨?_, s', fs', hbal'⟩
    cases a with
    | allocate v u w =>
      obtain ⟨r, -, rfl⟩ := Option.map_eq_some_iff.mp hstep
      exact hlost
    | free v =>
      obtain ⟨r, -, rfl⟩ := Option.map_eq_some_iff.mp hstep
      exact hlost
    | map v frame u w => exact hon.elim
    | unmap v => exact hon.elim

/-- The words of the stack and the pages of its window, as the processor reads them. -/
theorem Mirrors.stack (h : Mirrors p s) (hok : Pstack s fs) (hsp : ∀ f ∈ fs, s.Spare f) :
    storedFrames p.view = storedFrames s ∧ backingFrames p.view = backingFrames s := by
  have hentry : ∀ i < 1024, p.view.entry 1022 i = s.entry 1022 i := fun i hi => by
    rw [h.view_entry (by decide), h.entry 1022 (by decide) ⟨hok.small, hok.present⟩ i hi]
  refine ⟨?_, ?_⟩
  · have hlo := hok.pointer_bounds.1
    rw [kernelPstackBottom] at hlo
    rw [storedFrames, storedFrames, show p.view.pstackPointer = s.pstackPointer from h.pointer]
    refine List.map_congr_left fun i hi => ?_
    rw [List.mem_range, kernelPstackTop] at hi
    have hlow : kernelPstackBottom ≤ kernelPstackTop - 4 * (i + 1) := by
      rw [kernelPstackBottom, kernelPstackTop]
      omega
    have hhigh : kernelPstackTop - 4 * (i + 1) < kernelPtableAddr := by
      rw [kernelPtableAddr, kernelPstackTop]
      omega
    exact h.load hhigh fun a ha => hok.outside hsp hlow hhigh ha
  · rw [backingFrames, backingFrames]
    have hfilter : (List.range 1024).filter (fun i => p.view.EntryPresent 1022 i) =
        (List.range 1024).filter fun i => s.EntryPresent 1022 i := by
      refine List.filter_congr fun i hi => ?_
      rw [List.mem_range] at hi
      exact decide_eq_decide.mpr (by rw [State.EntryPresent, State.EntryPresent, hentry i hi])
    rw [hfilter]
    refine List.map_congr_left fun i hi => ?_
    have hi := List.mem_range.mp (List.mem_of_mem_filter hi)
    rw [State.frameAt, State.frameAt, show (1022 * 1024 + i) / 1024 = 1022 by omega,
      show (1022 * 1024 + i) % 1024 = i by omega, hentry i hi]

/-- In every state of a run each initial frame is in one place: stored on the
page stack, a page of its window, behind one allocated page, or a new page
table; and every call that may come next returns. -/
theorem frames_conserved (hb : Booted p₀) (hf : Frames initial) (hsp : ∀ f ∈ initial, p₀.Spare f)
    (h : FrameRun p₀ initial x) :
    (∃ stored, storedFrames x.phys.view = stored.map some ∧
      (stored ++ backingFrames x.phys.view ++ x.alloc.map x.phys.view.frameAt ++
        (newTables p₀.view x.phys.view).map x.phys.view.tableFrame).Perm initial) ∧
    x.alloc.Nodup ∧ (∀ n ∈ x.alloc, x.phys.view.HasPage n) ∧
    ∀ a, PageMay x.ledger a x.ledger → ∃ y, physStep x a = some y := by
  obtain ⟨hlost, s, fs, hbal⟩ := h.balanced hb hf hsp
  obtain ⟨hstored, hbacking⟩ := hbal.mirrors.stack hbal.balance.pstack (hbal.balance.spare hf hsp)
  obtain ⟨stored, heq, hsplit⟩ := hbal.balance.pstack.split
  have halloc : x.alloc.map x.phys.view.frameAt = x.alloc.map s.frameAt :=
    List.map_congr_left fun n hn => hbal.frameAt hn
  have htables : (newTables p₀.view x.phys.view).map x.phys.view.tableFrame =
      (newTables p₀.view s).map s.tableFrame := by
    rw [newTables_congr fun t ht => hbal.mirrors.view_table (Nat.lt_trans ht (by decide))]
    refine List.map_congr_left fun t ht => hbal.mirrors.tableFrame ?_
    exact Nat.lt_trans (List.mem_range.mp (List.mem_of_mem_filter ht)) (by decide)
  refine ⟨⟨stored, hstored.trans heq, ?_⟩, hbal.balance.nodup, fun n hn => ?_, fun a ha => ?_⟩
  · rw [hbacking, halloc, htables]
    refine List.Perm.trans ?_ hbal.balance.perm
    rw [hlost, List.append_nil, List.append_assoc]
    exact ((List.perm_append_comm).trans hsplit.symm).append_right _
  · obtain ⟨hlow, htable, hpresent⟩ := hbal.balance.mapped n hn
    have ht : n / 1024 < 1024 := Nat.lt_trans hlow (by decide)
    refine ⟨(hbal.mirrors.view_table ht).mpr htable, ?_⟩
    rwa [State.EntryPresent, hbal.mirrors.view_entry ht,
      hbal.mirrors.entry _ (Nat.lt_trans hlow (by decide)) htable _ (Nat.mod_lt _ (by decide))]
  · obtain ⟨y, -, -, hstep, -⟩ := hbal.step hf hsp ha
    exact ⟨y, hstep⟩

def supplied (initial : List Nat) : PhysLedger := ⟨(bootPhys.pushAll initial).getD bootPhys, [], []⟩

theorem supplied_run (h : (bootPhys.pushAll initial).isSome) :
    FrameRun bootPhys initial (supplied initial) := by
  obtain ⟨p, hp⟩ := Option.isSome_iff_exists.mp h
  exact .start ⟨by rw [supplied, hp]; rfl, rfl, rfl⟩

def PhysLedger.next (x : PhysLedger) (a : PageAction) : PhysLedger := (physStep x a).getD x

theorem FrameRun.next (h : FrameRun p₀ initial x) (hmay : PageMay x.ledger a x.ledger)
    (hon : a.OnFrames) (hsome : (physStep x a).isSome) : FrameRun p₀ initial (x.next a) := by
  obtain ⟨y, hy⟩ := Option.isSome_iff_exists.mp hsome
  refine h.step (a := a) (by rw [PhysLedger.next, hy]; rfl) ⟨?_, hon⟩
  cases a <;> exact hmay

/-- Two pages allocated, the first freed, and one more allocated that needs a table. -/
theorem frames_conserved_bootPhys :
    ∃ x y : PhysLedger, x.alloc = [0xC0002] ∧ x.alloc.map x.phys.view.frameAt = [0x7000] ∧
      storedFrames x.phys.view = [some 0x6000, some 0x8000] ∧ backingFrames x.phys.view = [0x5000] ∧
      physStep x (.allocate 0x1000 false true) = some y ∧
      ∃ stored, storedFrames y.phys.view = stored.map some ∧
        (stored ++ backingFrames y.phys.view ++ y.alloc.map y.phys.view.frameAt ++
          (newTables bootPhys.view y.phys.view).map y.phys.view.tableFrame).Perm [0x5000, 0x6000,
          0x7000, 0x8000] := by
  have hf : Frames [0x5000, 0x6000, 0x7000, 0x8000] := by
    refine ⟨by decide, fun f hf => ?_⟩
    simp only [List.mem_cons, List.not_mem_nil, or_false] at hf
    rcases hf with rfl | rfl | rfl | rfl <;> decide
  have hsp : ∀ f ∈ [0x5000, 0x6000, 0x7000, 0x8000], bootPhys.Spare f := by
    intro f hf t ht hset
    simp only [List.mem_cons, List.not_mem_nil, or_false] at hf
    rcases bootPhys_table hset with rfl | rfl | rfl <;> rcases hf with rfl | rfl | rfl | rfl
      <;> decide
  have h₀ : FrameRun bootPhys [0x5000, 0x6000, 0x7000, 0x8000]
    (supplied [0x5000, 0x6000, 0x7000, 0x8000]) :=
    supplied_run (by decide +kernel)
  have h₁ :=
    h₀.next (a := .allocate 0xC0001000 false true) (show 0xC0001000 < kernelPstackBottom by decide)
      trivial (by decide +kernel)
  have h₂ :=
    h₁.next (a := .allocate 0xC0002000 false true) (show 0xC0002000 < kernelPstackBottom by decide)
      trivial (by decide +kernel)
  have h₃ :=
    h₂.next (a := .free 0xC0001000) ⟨by decide, by decide +kernel⟩ trivial (by decide +kernel)
  obtain ⟨-, -, -, hnext⟩ := frames_conserved bootPhys_booted hf hsp h₃
  have hlow : 0x1000 < kernelPstackBottom := by decide
  obtain ⟨y, hy⟩ := hnext (.allocate 0x1000 false true) hlow
  have h₄ : FrameRun bootPhys _ y := .step h₃ hy ⟨hlow, trivial⟩
  exact ⟨_, y, by decide +kernel, by decide +kernel, by decide +kernel, by decide +kernel, hy,
    (frames_conserved bootPhys_booted hf hsp h₄).1⟩

/-- With the table of the window among the frames, both frames are nowhere. -/
theorem frames_conserved_own_table :
    ¬∀ p₀ initial x, Booted p₀ → Frames initial → FrameRun p₀ initial x →
      ∃ stored, storedFrames x.phys.view = stored.map some ∧
        (stored ++ backingFrames x.phys.view ++ x.alloc.map x.phys.view.frameAt ++
          (newTables p₀.view x.phys.view).map x.phys.view.tableFrame).Perm initial := by
  intro hall
  have hf : Frames [0x2000, 0x5000] := by
    refine ⟨by decide, fun f hf => ?_⟩
    simp only [List.mem_cons, List.not_mem_nil, or_false] at hf
    rcases hf with rfl | rfl <;> decide
  obtain ⟨stored, heq, -⟩ := hall _ _ _ bootPhys_booted hf (supplied_run (by decide +kernel))
  have hnone : storedFrames (supplied [0x2000, 0x5000]).phys.view = [none] := by decide +kernel
  rw [hnone] at heq
  cases stored with
  | nil => cases heq
  | cons f rest => cases heq

end ElcoOs.Paging
