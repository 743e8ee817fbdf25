import CellAsm.Proofs.Machine.Cells

set_option autoImplicit false

/-! # Memory as a map

A memory can be asked to read a cell, to write one and to clear all of them. What it answers depends
on the requests made before and on nothing else: a cell holds what remains in the word size of the
value written to it last, or 0 if nothing was written to it since all cells were cleared
(`IsLastWrite`, `Answers`). The memory and its past agree in this after every request
(`Reflects.snoc`), so a memory is a map from the addresses below the number of its cells
(`memory_answers_by_history`).
-/

namespace CellAsm.Memory

/-! ## Requests and their history -/

/-- What a memory can be asked for. -/
inductive Request where
  | read (address : UInt64)
  | write (address value : UInt64)
  | clear
deriving DecidableEq

namespace Request

/-- The cell that a request is about; clearing is about none in particular. -/
def address? : Request → Option UInt64
  | read address => some address
  | write address _ => some address
  | clear => none

/-- A request neither writes a cell nor clears it. -/
def Spares (request : Request) (address : UInt64) : Prop :=
  request ≠ .clear ∧ ∀ value, request ≠ .write address value

end Request

/-- The answer to a request and the memory after it. Only a read has a value to answer with. -/
def answer (memory : Memory) : Request → Except Fault.Cause (Option UInt64) × Memory
  | .read address => ((memory.read address).map some, memory)
  | .write address value =>
    match memory.write address value with
    | .ok next => (.ok none, next)
    | .error cause => (.error cause, memory)
  | .clear => (.ok none, memory.clear)

/-- A new memory after requests one after the other, whether or not they succeeded. -/
def afterAll (config : Config) (past : List Request) : Memory :=
  past.foldl (fun memory request => (memory.answer request).2) (blank config)

/-- The last write to a cell among requests has this value, and nothing was cleared after it. If the
cell exists this write has succeeded. -/
def IsLastWrite (past : List Request) (address value : UInt64) : Prop :=
  ∃ before later, past = before ++ .write address value :: later ∧
    ∀ request ∈ later, request.Spares address

/-- What a memory with the given parameters has to answer after requests. -/
inductive Answers (config : Config) (past : List Request) :
    Request → Except Fault.Cause (Option UInt64) → Prop
  | invalid {request : Request} {address : UInt64} (about : request.address? = some address)
      (behind : config.memorySize ≤ address.toNat) :
      Answers config past request (.error (.invalidAddress address))
  | written {address value word : UInt64} (inside : address.toNat < config.memorySize)
      (last : IsLastWrite past address value)
      (rest : word.toNat = value.toNat % 2 ^ config.wordSize) :
      Answers config past (.read address) (.ok (some word))
  | unwritten {address : UInt64} (inside : address.toNat < config.memorySize)
      (unwritten : ∀ value, ¬ IsLastWrite past address value) :
      Answers config past (.read address) (.ok (some 0))
  | stored {address value : UInt64} (inside : address.toNat < config.memorySize) :
      Answers config past (.write address value) (.ok none)
  | cleared : Answers config past .clear (.ok none)

section

variable {config : Config} {memory : Memory} {past : List Request} {request : Request}
  {address value : UInt64}

/-! ### The last write -/

theorem not_isLastWrite_nil : ¬ IsLastWrite [] address value := by
  rintro ⟨before, later, hsplit, -⟩
  exact List.append_ne_nil_of_right_ne_nil before (List.cons_ne_nil _ later) hsplit.symm

/-- A request is the last write to the cell, or it leaves the last write what it was. -/
theorem isLastWrite_concat_iff :
    IsLastWrite (past ++ [request]) address value ↔
      request = .write address value ∨ request.Spares address ∧ IsLastWrite past address value := by
  constructor
  · rintro ⟨before, later, hsplit, hlater⟩
    rcases concat_eq_append_cons_iff.mp hsplit with ⟨-, hwrite, -⟩ | ⟨rest, rfl, rfl⟩
    · exact .inl hwrite.symm
    · obtain ⟨hrest, hrequest⟩ := List.forall_mem_append.mp hlater
      have hspares := List.forall_mem_singleton.mp hrequest
      exact .inr ⟨hspares, before, rest, rfl, hrest⟩
  · rintro (rfl | ⟨hrequest, before, later, rfl, hlater⟩)
    · exact ⟨past, [], rfl, List.forall_mem_nil _⟩
    · refine ⟨before, later ++ [request], by simp, ?_⟩
      exact List.forall_mem_append.mpr ⟨hlater, List.forall_mem_singleton.mpr hrequest⟩

theorem spares_read (other : UInt64) : (Request.read other).Spares address :=
  ⟨Request.noConfusion, fun _ => Request.noConfusion⟩

theorem spares_write_iff {other : UInt64} :
    (Request.write other value).Spares address ↔ other ≠ address := by
  constructor
  · rintro ⟨-, hwrite⟩ rfl
    exact hwrite value rfl
  · exact fun hne => ⟨Request.noConfusion, fun _ heq => hne (Request.write.inj heq).1⟩

/-! ## The contents of the cells -/

/-- The cells hold what the requests so far have left in them. -/
structure Reflects (config : Config) (past : List Request) (memory : Memory) : Prop where
  fits : memory.Fits config
  written : ∀ address value, address.toNat < config.memorySize → IsLastWrite past address value →
    memory.Holds address (value.toNat % 2 ^ config.wordSize)
  unwritten : ∀ address, address.toNat < config.memorySize →
    (∀ value, ¬ IsLastWrite past address value) → memory.Holds address 0

theorem holds_zero {count : Nat} {mask : UInt64} (h : address.toNat < count) :
    Holds ⟨Array.replicate count 0, mask⟩ address 0 := by
  refine ⟨0, ?_, rfl⟩
  rw [read, Array.getElem?_replicate, if_pos h]

theorem read_of_size_le (h : memory.size ≤ address.toNat) :
    memory.read address = .error (.invalidAddress address) := by
  rw [read, Array.getElem?_eq_none h]

theorem reflects_blank (config : Config) : Reflects config [] (blank config) where
  fits := fits_blank config
  written _ _ _ hlast := absurd hlast not_isLastWrite_nil
  unwritten _ hinside _ := holds_zero hinside

namespace Reflects

/-- A request that spares all cells leaves the contents as they are. -/
theorem snoc_of_spares (h : Reflects config past memory)
    (hspares : ∀ address, address.toNat < config.memorySize → request.Spares address) :
    Reflects config (past ++ [request]) memory where
  fits := h.fits
  written address value hinside hlast := by
    rcases isLastWrite_concat_iff.mp hlast with rfl | ⟨-, hlast⟩
    · exact absurd rfl ((hspares address hinside).2 value)
    · exact h.written address value hinside hlast
  unwritten address hinside hnone := by
    refine h.unwritten address hinside fun value hlast => hnone value ?_
    exact isLastWrite_concat_iff.mpr (.inr ⟨hspares address hinside, hlast⟩)

/-- A write that succeeds is the last one to its cell, and the other cells keep theirs. -/
theorem set (h : Reflects config past memory) (address value : UInt64)
    (hcell : address.toNat < memory.size) :
    Reflects config (past ++ [.write address value]) (memory.set address value hcell) where
  fits := h.fits.set address value hcell
  written other found hinside hlast := by
    rcases isLastWrite_concat_iff.mp hlast with heq | ⟨hspares, hlast⟩
    · obtain ⟨rfl, rfl⟩ := Request.write.inj heq
      exact h.fits.holds_set address value hcell
    · obtain ⟨word, hread, hword⟩ := h.written other found hinside hlast
      have hkept := memory.read_set_of_ne value hcell (spares_write_iff.mp hspares)
      exact ⟨word, hkept.trans hread, hword⟩
  unwritten other hinside hnone := by
    have hne : address ≠ other := by
      rintro rfl
      exact hnone value (isLastWrite_concat_iff.mpr (.inl rfl))
    have hbefore : ∀ found, ¬ IsLastWrite past other found := fun found hlast =>
      hnone found (isLastWrite_concat_iff.mpr (.inr ⟨spares_write_iff.mpr hne, hlast⟩))
    obtain ⟨word, hread, hword⟩ := h.unwritten other hinside hbefore
    exact ⟨word, (memory.read_set_of_ne value hcell hne).trans hread, hword⟩

theorem clear (h : Reflects config past memory) :
    Reflects config (past ++ [.clear]) memory.clear where
  fits := h.fits.clear
  written address value _ hlast := by
    rcases isLastWrite_concat_iff.mp hlast with heq | ⟨⟨hclear, -⟩, -⟩
    · cases heq
    · exact absurd rfl hclear
  unwritten address hinside _ := by
    refine holds_zero ?_
    rw [h.fits.size]
    exact hinside

/-- **The memory agrees with its past after every request**, whether or not it succeeds. -/
theorem snoc (h : Reflects config past memory) (request : Request) :
    Reflects config (past ++ [request]) (memory.answer request).2 := by
  cases request with
  | read address => exact h.snoc_of_spares fun _ _ => spares_read address
  | write address value =>
      by_cases hcell : address.toNat < memory.size
      · rw [answer, write, dif_pos hcell]
        exact h.set address value hcell
      · -- the write has failed, and it was to no cell that exists
        rw [answer, write, dif_neg hcell]
        refine h.snoc_of_spares fun other hother => spares_write_iff.mpr ?_
        rintro rfl
        exact hcell (h.fits.size ▸ hother)
  | clear => exact h.clear

/-- A request is answered as the past says. -/
theorem answer_eq (h : Reflects config past memory)
    {expected : Except Fault.Cause (Option UInt64)}
    (hanswers : Answers config past request expected) :
    (memory.answer request).1 = expected := by
  cases hanswers with
  | @invalid _ address about behind =>
      have hbehind : memory.size ≤ address.toNat := h.fits.size ▸ behind
      cases request with
      | read other =>
          obtain rfl := Option.some.inj about
          rw [answer, read_of_size_le hbehind]
          rfl
      | write other value =>
          obtain rfl := Option.some.inj about
          rw [answer, write, dif_neg (Nat.not_lt_of_le hbehind)]
      | clear => cases about
  | @written address value word inside last rest =>
      obtain ⟨found, hread, hfound⟩ := h.written address value inside last
      -- cell and history agree on the number, and a word is known by its number
      obtain rfl : found = word := UInt64.toNat_inj.mp (hfound.trans rest.symm)
      rw [answer, hread]
      rfl
  | @unwritten address inside unwritten =>
      obtain ⟨found, hread, hfound⟩ := h.unwritten address inside unwritten
      obtain rfl : found = 0 := UInt64.toNat_inj.mp hfound
      rw [answer, hread]
      rfl
  | stored inside => rw [answer, write, dif_pos (h.fits.size ▸ inside)]
  | cleared => rfl

end Reflects

/-- **After any requests the memory agrees with its past.** -/
theorem reflects_afterAll (config : Config) (past : List Request) :
    Reflects config past (afterAll config past) := by
  induction past using List.reverseRecOn with
  | nil => exact reflects_blank config
  | append_singleton past request ih =>
      rw [afterAll, List.foldl_concat]
      exact ih.snoc request

/-! ## Answers -/

/-- The past says something about every request. -/
theorem exists_answers (config : Config) (past : List Request) (request : Request) :
    ∃ expected, Answers config past request expected := by
  cases request with
  | read address =>
      by_cases hinside : address.toNat < config.memorySize
      · by_cases hlast : ∃ value, IsLastWrite past address value
        · obtain ⟨value, hlast⟩ := hlast
          have hlt : value.toNat % 2 ^ config.wordSize < 2 ^ 64 :=
            Nat.lt_of_le_of_lt (Nat.mod_le _ _) value.toNat_lt
          exact ⟨_, .written hinside hlast (UInt64.toNat_ofNat_of_lt hlt)⟩
        · exact ⟨_, .unwritten hinside (not_exists.mp hlast)⟩
      · exact ⟨_, .invalid rfl (Nat.le_of_not_lt hinside)⟩
  | write address value =>
      by_cases hinside : address.toNat < config.memorySize
      · exact ⟨_, .stored hinside⟩
      · exact ⟨_, .invalid rfl (Nat.le_of_not_lt hinside)⟩
  | clear => exact ⟨_, .cleared⟩

/-- A request that fails leaves the memory as it is. -/
theorem snd_answer_of_error {cause : Fault.Cause} (h : (memory.answer request).1 = .error cause) :
    (memory.answer request).2 = memory := by
  cases request with
  | read address => rfl
  | write address value =>
      by_cases hcell : address.toNat < memory.size
      · rw [answer, write, dif_pos hcell] at h
        cases h
      · rw [answer, write, dif_neg hcell]
  | clear => cases h

/-- **A memory is a map with bounds.** Whatever a new memory has been asked for, it answers the next
request as its past says, and in no other way: a read of a cell that exists gives what remains in
the word size of the value written to it last since the cells were cleared, or 0 if there was no
such write, and writing and clearing succeed. A request fails exactly if it is about an address that
is not below the number of cells, and then it changes nothing. The number of cells never changes. -/
theorem memory_answers_by_history (config : Config) (past : List Request) (request : Request) :
    let memory := afterAll config past
    (∀ expected, (memory.answer request).1 = expected ↔ Answers config past request expected) ∧
    ((∃ cause, (memory.answer request).1 = .error cause) ↔
      ∃ address, request.address? = some address ∧ config.memorySize ≤ address.toNat) ∧
    (∀ cause, (memory.answer request).1 = .error cause →
      cause.code = .invalidAddress ∧ (memory.answer request).2 = memory) ∧
    memory.size = config.memorySize := by
  intro memory
  have hreflects : Reflects config past memory := reflects_afterAll config past
  have hiff : ∀ expected, (memory.answer request).1 = expected ↔
      Answers config past request expected := by
    intro expected
    refine ⟨?_, hreflects.answer_eq⟩
    rintro rfl
    obtain ⟨expected, hexpected⟩ := exists_answers config past request
    rwa [hreflects.answer_eq hexpected]
  refine ⟨hiff, ⟨?_, ?_⟩, ?_, hreflects.fits.size⟩
  · rintro ⟨cause, hcause⟩
    cases (hiff _).mp hcause with
    | invalid about behind => exact ⟨_, about, behind⟩
  · rintro ⟨address, about, behind⟩
    exact ⟨_, (hiff _).mpr (.invalid about behind)⟩
  · intro cause hcause
    refine ⟨?_, snd_answer_of_error hcause⟩
    cases (hiff _).mp hcause with
    | invalid about behind => rfl

end

namespace Accesses.Sample

/-- Two cells of 8 bits each. -/
def parameters : Config := Config.default.withMemorySize 2

/-- A cell is written twice, and in between there is a write to a cell that does not exist. -/
def past : List Request := [.write 0 7, .clear, .write 1 511, .write 2 9, .write 1 300]

end Accesses.Sample

open Accesses.Sample in
theorem memory_answers_by_history_sample :
    ((afterAll parameters past).answer (.read 1)).1 = .ok (some 44) ∧
      ((afterAll parameters past).answer (.write 2 9)).1 = .error (.invalidAddress 2) ∧
      ((afterAll parameters past).answer (.write 2 9)).2 = afterAll parameters past := by
  obtain ⟨hread, -, -, -⟩ := memory_answers_by_history parameters past (.read 1)
  obtain ⟨hwrite, -, hfailed, -⟩ := memory_answers_by_history parameters past (.write 2 9)
  have hlast : IsLastWrite past 1 300 :=
    ⟨[.write 0 7, .clear, .write 1 511, .write 2 9], [], rfl, List.forall_mem_nil _⟩
  have hfault := (hwrite _).mpr (.invalid rfl (by decide))
  exact ⟨(hread _).mpr (.written (by decide) hlast (by decide)), hfault, (hfailed _ hfault).2⟩

end CellAsm.Memory
