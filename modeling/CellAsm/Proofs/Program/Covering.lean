import CellAsm.Proofs.Program.ControlFlow

set_option autoImplicit false

/-! # The instruction that an address belongs to

A program remembers where its instructions begin, and looks up the line of an address by the last
beginning at the address or before it. Inside the program this is the instruction whose words
contain the address (`Program.lineFor_of_covers`), be it the first of them or an operand, and
every address inside belongs to one (`Listing.exists_covers`). Behind the end of the program it is
the last instruction (`Program.lineFor_of_size_le`).
-/

namespace CellAsm

namespace Listing

variable {listing : Listing} {address : Nat} {entry : Line × Instruction}

/-- The words of an instruction of the listing contain an address. -/
def Covers (listing : Listing) (address : Nat) (entry : Line × Instruction) : Prop :=
  ∃ start, listing.BeginsAt start entry ∧ start ≤ address ∧ address < start + entry.2.size

theorem size_cons (entry : Line × Instruction) (listing : Listing) :
    size (entry :: listing) = entry.2.size + listing.size := by
  have hsplit : size ([entry] ++ listing) = size [entry] + listing.size := size_append _ _
  have hentry : size [entry] = entry.2.size := by
    rw [size, words, List.flatMap_singleton, Instruction.size]
  rw [← hentry, ← hsplit]
  rfl

/-- No instruction is without words. -/
theorem size_eq_zero_iff : listing.size = 0 ↔ listing = [] := by
  cases listing with
  | nil => exact iff_of_true rfl rfl
  | cons entry listing =>
      have hpos : 0 < entry.2.size := Nat.succ_pos _
      rw [size_cons]
      exact iff_of_false (by omega) (List.cons_ne_nil _ _)

theorem Covers.cons (h : listing.Covers address entry) (first : Line × Instruction) :
    Covers (first :: listing) (first.2.size + address) entry := by
  obtain ⟨start, ⟨front, back, rfl, rfl⟩, hle, hlt⟩ := h
  refine ⟨first.2.size + front.size, ⟨first :: front, back, rfl, ?_⟩, ?_, ?_⟩
  · exact (size_cons first front).symm
  · omega
  · omega

/-- Every address inside a program belongs to an instruction. -/
theorem exists_covers (h : address < listing.size) : ∃ entry, listing.Covers address entry := by
  induction listing generalizing address with
  | nil => exact absurd h (Nat.not_lt_zero address)
  | cons first listing ih =>
      rw [size_cons] at h
      by_cases hfirst : address < first.2.size
      · have hbegins : BeginsAt (first :: listing) 0 first := ⟨[], listing, rfl, rfl⟩
        exact ⟨first, 0, hbegins, Nat.zero_le address, by omega⟩
      · have hrest : address - first.2.size < size listing := by omega
        obtain ⟨entry, hentry⟩ := ih hrest
        have hsum : first.2.size + (address - first.2.size) = address := by omega
        have hcovers := hentry.cons first
        rw [hsum] at hcovers
        exact ⟨entry, hcovers⟩

end Listing

namespace Program

open Listing

variable {listing front back : Listing} {address start : Nat} {entry : Line × Instruction}

/-! ## The beginnings of instructions -/

theorem layOut_append (start : Nat) (front back : Listing) :
    layOut start (front ++ back) = layOut start front ++ layOut (start + front.size) back := by
  induction front generalizing start with
  | nil => rfl
  | cons entry front ih =>
      obtain ⟨line, instruction⟩ := entry
      rw [List.cons_append, layOut, ih, layOut, size_cons, Nat.add_assoc, List.cons_append]

theorem le_of_mem_layOut {origin : Nat × Line} (h : origin ∈ layOut start listing) :
    start ≤ origin.1 := by
  induction listing generalizing start with
  | nil => cases h
  | cons entry listing ih =>
      rw [layOut] at h
      rcases List.mem_cons.mp h with rfl | hlater
      · exact Nat.le_refl start
      · exact Nat.le_trans (Nat.le_add_right start _) (ih hlater)

/-- The last instruction begins before the end. -/
theorem lt_of_mem_layOut {origin : Nat × Line} (h : origin ∈ layOut start listing) :
    origin.1 < start + listing.size := by
  induction listing generalizing start with
  | nil => cases h
  | cons entry listing ih =>
      have hpos : 0 < entry.2.size := Nat.succ_pos _
      rw [layOut] at h
      rw [size_cons]
      rcases List.mem_cons.mp h with rfl | hlater
      · show start < start + (entry.2.size + Listing.size listing)
        omega
      · have hlt := ih hlater
        omega

/-! ## The line of an address -/

/-- The line is the one of the last instruction that begins at the address or before it. -/
theorem lineFor_of_last (hle : front.size ≤ address)
    (hlater : ∀ origin ∈ layOut (front.size + entry.2.size) back, address < origin.1) :
    (ofListing (front ++ entry :: back)).lineFor address = some entry.1 := by
  obtain ⟨line, instruction⟩ := entry
  have hlayOut : layOut 0 (front ++ (line, instruction) :: back)
      = layOut 0 front ++ (front.size, line) :: layOut (front.size + instruction.size) back := by
    rw [layOut_append, Nat.zero_add, layOut]
  let reached (origin : Nat × Line) : Bool := origin.1 ≤ address
  have hfront : ∀ origin ∈ layOut 0 front, reached origin = true := by
    intro origin horigin
    have hlt := lt_of_mem_layOut horigin
    exact decide_eq_true (by omega)
  have hown : reached (front.size, line) = true := decide_eq_true hle
  -- the instructions behind begin after the address, so the search stops here
  have hback : (layOut (front.size + instruction.size) back).takeWhile reached = [] := by
    refine List.takeWhile_eq_nil_iff.mpr fun hpos => ?_
    rw [decide_eq_true_iff]
    exact Nat.not_le_of_lt (hlater _ (List.get_mem _ _))
  have htake : (layOut 0 (front ++ (line, instruction) :: back)).takeWhile reached
      = layOut 0 front ++ [(front.size, line)] := by
    rw [hlayOut, List.takeWhile_append_of_pos hfront, List.takeWhile_cons_of_pos hown, hback]
  show ((layOut 0 (front ++ (line, instruction) :: back)).takeWhile reached).getLast?.map Prod.snd
    = some line
  rw [htake, List.getLast?_concat, Option.map_some]

/-- **An address inside the program belongs to the instruction whose words contain it.** -/
theorem lineFor_of_covers (h : listing.Covers address entry) :
    (ofListing listing).lineFor address = some entry.1 := by
  obtain ⟨start, ⟨front, back, rfl, rfl⟩, hle, hlt⟩ := h
  refine lineFor_of_last hle fun origin horigin => ?_
  exact Nat.lt_of_lt_of_le hlt (le_of_mem_layOut horigin)

/-- Behind the end an address belongs to the last instruction, if there is one. -/
theorem lineFor_of_size_le (h : listing.size ≤ address) :
    (ofListing listing).lineFor address = listing.getLast?.map Prod.fst := by
  induction listing using List.reverseRecOn with
  | nil => rfl
  | append_singleton front entry _ =>
      have hfront : Listing.size front ≤ address := by
        rw [size_append] at h
        omega
      rw [List.getLast?_concat, Option.map_some]
      exact lineFor_of_last hfront (by simp [layOut])

end Program

end CellAsm
