import CellAsm.Proofs.Machine.Cells

set_option autoImplicit false

/-! # Narrow machines

Of a machine with wide cells and one with narrow cells, which are alike otherwise, the narrow one
shows the wide one with every cell cut to its width (`Machine.Truncates`), as long as no jump asks
what is in a cell. Each operation that stores its result commutes with the cut: it gives congruent
results for congruent words (`Congruent`), and cells and operands of the two machines are congruent.
So a step of the wide machine is followed by a step of the narrow one (`exists_step_of_truncates`).
-/

namespace CellAsm

/-! ## Congruent words -/

/-- The words have the same lowest `bits` bits. -/
def Congruent (bits : Nat) (v w : UInt64) : Prop := v.toNat ≡ w.toNat [MOD 2 ^ bits]

namespace Congruent

variable {bits : Nat} {a a' b b' : UInt64}

protected theorem refl (bits : Nat) (a : UInt64) : Congruent bits a a := Nat.ModEq.refl a.toNat

theorem and (ha : Congruent bits a' a) (hb : Congruent bits b' b) :
    Congruent bits (a' &&& b') (a &&& b) := by
  have ha : a'.toNat % 2 ^ bits = a.toNat % 2 ^ bits := ha
  have hb : b'.toNat % 2 ^ bits = b.toNat % 2 ^ bits := hb
  rw [Congruent, Nat.ModEq, UInt64.toNat_and, UInt64.toNat_and, Nat.and_mod_two_pow, ha, hb,
    ← Nat.and_mod_two_pow]

theorem or (ha : Congruent bits a' a) (hb : Congruent bits b' b) :
    Congruent bits (a' ||| b') (a ||| b) := by
  have ha : a'.toNat % 2 ^ bits = a.toNat % 2 ^ bits := ha
  have hb : b'.toNat % 2 ^ bits = b.toNat % 2 ^ bits := hb
  rw [Congruent, Nat.ModEq, UInt64.toNat_or, UInt64.toNat_or, Nat.or_mod_two_pow, ha, hb,
    ← Nat.or_mod_two_pow]

theorem xor (ha : Congruent bits a' a) (hb : Congruent bits b' b) :
    Congruent bits (a' ^^^ b') (a ^^^ b) := by
  have ha : a'.toNat % 2 ^ bits = a.toNat % 2 ^ bits := ha
  have hb : b'.toNat % 2 ^ bits = b.toNat % 2 ^ bits := hb
  rw [Congruent, Nat.ModEq, UInt64.toNat_xor, UInt64.toNat_xor, Nat.xor_mod_two_pow, ha, hb,
    ← Nat.xor_mod_two_pow]

/-- What a sum loses above 64 bits does not matter below. -/
theorem toNat_add (hbits : bits ≤ 64) (a b : UInt64) :
    (a + b).toNat ≡ a.toNat + b.toNat [MOD 2 ^ bits] := by
  rw [UInt64.toNat_add]
  exact (Nat.mod_modEq _ _).of_dvd (pow_dvd_pow 2 hbits)

theorem add (hbits : bits ≤ 64) (ha : Congruent bits a' a) (hb : Congruent bits b' b) :
    Congruent bits (a' + b') (a + b) :=
  calc (a' + b').toNat
      ≡ a'.toNat + b'.toNat [MOD 2 ^ bits] := toNat_add hbits a' b'
    _ ≡ a.toNat + b.toNat [MOD 2 ^ bits] := Nat.ModEq.add ha hb
    _ ≡ (a + b).toNat [MOD 2 ^ bits] := (toNat_add hbits a b).symm

/-- Adding what was subtracted gives back the word. -/
theorem toNat_sub_add (hbits : bits ≤ 64) (a b : UInt64) :
    a.toNat ≡ (a - b).toNat + b.toNat [MOD 2 ^ bits] := by
  have h := toNat_add hbits (a - b) b
  rwa [UInt64.sub_add_cancel] at h

theorem sub (hbits : bits ≤ 64) (ha : Congruent bits a' a) (hb : Congruent bits b' b) :
    Congruent bits (a' - b') (a - b) := by
  refine Nat.ModEq.add_right_cancel hb ?_
  exact (toNat_sub_add hbits a' b').symm.trans (ha.trans (toNat_sub_add hbits a b))

theorem toNat_add_toNat_not (a : UInt64) : a.toNat + (~~~a).toNat = 2 ^ 64 - 1 := by
  have hlt := a.toNat_lt
  rw [UInt64.toNat_not, UInt64.size]
  omega

theorem not (ha : Congruent bits a' a) : Congruent bits (~~~a') (~~~a) := by
  refine Nat.ModEq.add_left_cancel ha ?_
  rw [toNat_add_toNat_not, toNat_add_toNat_not]

/-- Congruent words have the same value in a cell of that width. -/
theorem and_wordMask {config : Config} (h : Congruent config.wordSize a' a) :
    a' &&& config.wordMask = a &&& config.wordMask := by
  apply UInt64.toNat_inj.mp
  rw [UInt64.toNat_and, UInt64.toNat_and, config.toNat_wordMask, Nat.and_two_pow_sub_one_eq_mod,
    Nat.and_two_pow_sub_one_eq_mod]
  exact h

/-- A word and what remains of it in a cell that is wide enough. -/
theorem and_wordMask_left {config : Config} (h : bits ≤ config.wordSize) (a : UInt64) :
    Congruent bits (a &&& config.wordMask) a := by
  rw [Congruent, UInt64.toNat_and, config.toNat_wordMask, Nat.and_two_pow_sub_one_eq_mod]
  exact (Nat.mod_modEq _ _).of_dvd (pow_dvd_pow 2 h)

end Congruent

/-! ## Memory -/

namespace Memory

variable {memory : Memory}

/-- The memory with every cell cut to what fits under a mask. -/
def truncated (memory : Memory) (mask : UInt64) : Memory :=
  ⟨memory.cells.map (· &&& mask), mask⟩

@[simp] theorem size_truncated (memory : Memory) (mask : UInt64) :
    (memory.truncated mask).size = memory.size := Array.size_map

theorem read_truncated {address word : UInt64} (mask : UInt64)
    (h : memory.read address = .ok word) :
    (memory.truncated mask).read address = .ok (word &&& mask) := by
  unfold read at h ⊢
  rw [truncated, Array.getElem?_map]
  split at h
  · next value hvalue =>
      obtain rfl := Except.ok.inj h
      rw [hvalue]
      rfl
  · cases h

theorem truncated_blank {narrow wide : Config} (h : narrow.memorySize = wide.memorySize) :
    (blank wide).truncated narrow.wordMask = blank narrow := by
  simp [truncated, blank, h]

/-- Storing congruent words keeps the narrow memory the cut of the wide one. -/
theorem set_truncated {narrow wide : Config} (hfits : memory.Fits wide)
    (hwidth : narrow.wordSize ≤ wide.wordSize) {address word word' : UInt64}
    (hword : Congruent narrow.wordSize word' word) (haddress : address.toNat < memory.size)
    (haddress' : address.toNat < (memory.truncated narrow.wordMask).size) :
    (memory.truncated narrow.wordMask).set address word' haddress'
      = (memory.set address word haddress).truncated narrow.wordMask := by
  have hcut : word' &&& narrow.wordMask = (word &&& memory.mask) &&& narrow.wordMask := by
    rw [hfits.mask]
    exact Congruent.and_wordMask (hword.trans (Congruent.and_wordMask_left hwidth word).symm)
  simp only [set, truncated, Array.map_set, hcut]

end Memory

namespace Machine

/-! ## The two machines -/

/-- The machine `narrow` shows `wide` with every cell cut to its own width. They need not agree in
what they have printed. -/
structure Truncates (narrow wide : Machine) : Prop where
  width_le : narrow.config.wordSize ≤ wide.config.wordSize
  maxRandom_eq : narrow.config.maxRandom = wide.config.maxRandom
  program_eq : narrow.program = wide.program
  fits : wide.memory.Fits wide.config
  memory_eq : narrow.memory = wide.memory.truncated narrow.config.wordMask
  ip_eq : narrow.ip = wide.ip
  ticks_eq : narrow.ticks = wide.ticks
  running_eq : narrow.running = wide.running
  input_eq : narrow.input = wide.input
  draws_eq : narrow.draws = wide.draws
  drawn_eq : narrow.drawn = wide.drawn

/-- The next instruction is a jump, whether or not its condition holds. -/
def Jumps (machine : Machine) : Prop :=
  ∃ found ∈ machine.instruction.toOption, found.1.effect = .jump

instance : DecidablePred Jumps := fun machine =>
  inferInstanceAs (Decidable (∃ found ∈ machine.instruction.toOption, found.1.effect = .jump))

theorem jumps_iff_of_instruction {machine : Machine} {mnemonic : Mnemonic} {act : Action}
    (h : machine.instruction = .ok (mnemonic, act)) :
    machine.Jumps ↔ mnemonic.effect = .jump := by
  rw [Jumps, h]
  simp [Except.toOption]

section

variable {narrow wide last : Machine}

/-! ## Operands -/

/-- Operands of the two machines, where `bits` is the width of the narrow one: the destinations are
the same and the values congruent. -/
inductive OperandsAgree (bits : Nat) : List (Kind × Param) → List UInt64 → List UInt64 → Prop
  | nil : OperandsAgree bits [] [] []
  | dest {uses : List (Kind × Param)} {ws' ws : List UInt64} (kind : Kind) (word : UInt64)
      (h : OperandsAgree bits uses ws' ws) :
      OperandsAgree bits ((kind, .dest) :: uses) (word :: ws') (word :: ws)
  | value {uses : List (Kind × Param)} {ws' ws : List UInt64} {word' word : UInt64} (kind : Kind)
      (hword : Congruent bits word' word) (h : OperandsAgree bits uses ws' ws) :
      OperandsAgree bits ((kind, .value) :: uses) (word' :: ws') (word :: ws)

namespace OperandsAgree

variable {bits : Nat} {uses : List (Kind × Param)} {ws' ws : List UInt64}

theorem getD (h : OperandsAgree bits uses ws' ws) (i : Nat) :
    Congruent bits (ws'.getD i 0) (ws.getD i 0) := by
  induction h generalizing i with
  | nil => exact .refl bits _
  | dest kind word _ ih =>
      cases i with
      | zero => exact .refl bits word
      | succ i => exact ih i
  | value kind hword _ ih =>
      cases i with
      | zero => exact hword
      | succ i => exact ih i

theorem destination_eq {kinds : List Kind} {params : List Param}
    (h : OperandsAgree bits (kinds.zip (.dest :: params)) ws' ws) :
    ws'.getD 0 0 = ws.getD 0 0 := by
  cases kinds with
  | nil => cases h; rfl
  | cons kind kinds => cases h; rfl

end OperandsAgree

/-- The first operand and the ones behind it. -/
theorem operandsAt_cons_eq_ok {machine : Machine} {address : Nat} {kind : Kind} {param : Param}
    {uses : List (Kind × Param)} {words : List UInt64} :
    machine.operandsAt address ((kind, param) :: uses) = .ok words ↔
      ∃ fetched word rest, machine.fetch address = .ok fetched ∧
        (if kind.isRead param then machine.memory.read fetched else .ok fetched) = .ok word ∧
        machine.operandsAt (address + 1) uses = .ok rest ∧ words = word :: rest := by
  rw [operandsAt_cons]
  constructor
  · intro h
    obtain ⟨fetched, hfetched, h⟩ := Success.bind_iff.mp h
    obtain ⟨word, hword, h⟩ := Success.bind_iff.mp h
    obtain ⟨rest, hrest, h⟩ := Success.bind_iff.mp h
    exact ⟨fetched, word, rest, hfetched, hword, hrest, (Success.pure_iff.mp h).symm⟩
  · rintro ⟨fetched, word, rest, hfetched, hword, hrest, rfl⟩
    refine Success.bind_iff.mpr ⟨fetched, hfetched, Success.bind_iff.mpr ⟨word, hword, ?_⟩⟩
    exact Success.bind_iff.mpr ⟨rest, hrest, rfl⟩

namespace Truncates

theorem read (h : narrow.Truncates wide) {address word : UInt64}
    (hread : wide.memory.read address = .ok word) :
    ∃ word', narrow.memory.read address = .ok word' ∧
      Congruent narrow.config.wordSize word' word := by
  rw [h.memory_eq]
  exact ⟨_, Memory.read_truncated _ hread, Congruent.and_wordMask_left le_rfl word⟩

theorem fetch (h : narrow.Truncates wide) (address : Nat) :
    narrow.fetch address = wide.fetch address := by
  rw [Machine.fetch, h.program_eq, Machine.fetch]

theorem opcode (h : narrow.Truncates wide) : narrow.opcode = wide.opcode := by
  rw [Machine.opcode, h.fetch, h.ip_eq, Machine.opcode]

theorem operandsAt (h : narrow.Truncates wide) {address : Nat} {uses : List (Kind × Param)}
    {ws : List UInt64} (hws : wide.operandsAt address uses = .ok ws) :
    ∃ ws', narrow.operandsAt address uses = .ok ws' ∧
      OperandsAgree narrow.config.wordSize uses ws' ws := by
  induction uses generalizing address ws with
  | nil =>
      obtain rfl := Except.ok.inj hws
      exact ⟨[], rfl, .nil⟩
  | cons use uses ih =>
      obtain ⟨kind, param⟩ := use
      obtain ⟨fetched, word, rest, hfetched, hword, hrest, rfl⟩ := operandsAt_cons_eq_ok.mp hws
      obtain ⟨rest', hrest', hagree⟩ := ih hrest
      rw [← h.fetch address] at hfetched
      -- it remains to say what the narrow machine takes for the first operand
      suffices hfirst : ∃ word',
          (if kind.isRead param then narrow.memory.read fetched else .ok fetched) = .ok word' ∧
          OperandsAgree narrow.config.wordSize ((kind, param) :: uses) (word' :: rest')
            (word :: rest) by
        obtain ⟨word', hword', hagree⟩ := hfirst
        exact ⟨_, operandsAt_cons_eq_ok.mpr ⟨fetched, word', rest', hfetched, hword', hrest', rfl⟩,
          hagree⟩
      cases param with
      | dest =>
          have hplain : kind.isRead .dest = false := by cases kind <;> rfl
          rw [hplain] at hword ⊢
          obtain rfl := Except.ok.inj hword
          exact ⟨fetched, rfl, .dest kind fetched hagree⟩
      | value =>
          cases kind with
          | address =>
              obtain ⟨word', hword', hcongruent⟩ := h.read hword
              exact ⟨word', hword', .value .address hcongruent hagree⟩
          | literal =>
              obtain rfl := Except.ok.inj hword
              exact ⟨fetched, rfl, .value .literal (.refl _ fetched) hagree⟩

end Truncates

/-! ## Actions -/

/-- What instructions that do not jump ask the two machines for: the same, but that they may store
congruent words and print different texts. -/
inductive ActionsAgree (bits : Nat) : Action → Action → Prop
  | store (address : UInt64) {word' word : UInt64} (hword : Congruent bits word' word) :
      ActionsAgree bits (.store address word') (.store address word)
  | draw (address : UInt64) : ActionsAgree bits (.draw address) (.draw address)
  | read (address : UInt64) : ActionsAgree bits (.read address) (.read address)
  | print (text' text : String) : ActionsAgree bits (.print text') (.print text)
  | halt : ActionsAgree bits .halt .halt

namespace Truncates

theorem combine (h : narrow.Truncates wide) {address : UInt64} {f' f : UInt64 → UInt64}
    {act : Action}
    (hf : ∀ old' old, Congruent narrow.config.wordSize old' old →
      Congruent narrow.config.wordSize (f' old') (f old))
    (hact : Machine.combine wide.memory address f = .ok act) :
    ∃ act', Machine.combine narrow.memory address f' = .ok act' ∧
      ActionsAgree narrow.config.wordSize act' act := by
  obtain ⟨old, hread, rfl⟩ := Success.map_iff.mp hact
  obtain ⟨old', hread', hold⟩ := h.read hread
  refine ⟨.store address (f' old'), ?_, .store address (hf old' old hold)⟩
  rw [Machine.combine, hread']
  rfl

/-- **Every operation that does not jump asks for the same** up to congruence. -/
theorem action (h : narrow.Truncates wide) {mnemonic : Mnemonic} {kinds : List Kind}
    {ws' ws : List UInt64} {act : Action} (hjump : mnemonic.effect ≠ .jump)
    (hagree : OperandsAgree narrow.config.wordSize (kinds.zip mnemonic.params) ws' ws)
    (hact : Machine.action wide.memory mnemonic ws = .ok act) :
    ∃ act', Machine.action narrow.memory mnemonic ws' = .ok act' ∧
      ActionsAgree narrow.config.wordSize act' act := by
  have hbits : narrow.config.wordSize ≤ 64 := narrow.config.wordSize_le
  have hsource := hagree.getD 1
  unfold Machine.action at hact ⊢
  cases mnemonic with
  | and =>
      rw [hagree.destination_eq]
      exact h.combine (fun _ _ hold => hold.and hsource) hact
  | or =>
      rw [hagree.destination_eq]
      exact h.combine (fun _ _ hold => hold.or hsource) hact
  | xor =>
      rw [hagree.destination_eq]
      exact h.combine (fun _ _ hold => hold.xor hsource) hact
  | not =>
      rw [hagree.destination_eq]
      exact h.combine (fun _ _ hold => hold.not) hact
  | add =>
      rw [hagree.destination_eq]
      exact h.combine (fun _ _ hold => hold.add hbits hsource) hact
  | sub =>
      rw [hagree.destination_eq]
      exact h.combine (fun _ _ hold => hold.sub hbits hsource) hact
  | mov =>
      obtain rfl := Except.ok.inj hact
      rw [hagree.destination_eq]
      exact ⟨_, rfl, .store _ hsource⟩
  | random =>
      obtain rfl := Except.ok.inj hact
      rw [hagree.destination_eq]
      exact ⟨_, rfl, .draw _⟩
  | aread =>
      obtain rfl := Except.ok.inj hact
      rw [hagree.destination_eq]
      exact ⟨_, rfl, .read _⟩
  | halt =>
      obtain rfl := Except.ok.inj hact
      exact ⟨_, rfl, .halt⟩
  | aprint =>
      obtain rfl := Except.ok.inj hact
      exact ⟨_, rfl, .print _ _⟩
  | dprint =>
      obtain rfl := Except.ok.inj hact
      exact ⟨_, rfl, .print _ _⟩
  | jmp | jz | jeq | jls | jgt => exact absurd rfl hjump

theorem instruction (h : narrow.Truncates wide) {mnemonic : Mnemonic} {act : Action}
    (hjump : mnemonic.effect ≠ .jump) (hact : wide.instruction = .ok (mnemonic, act)) :
    ∃ act', narrow.instruction = .ok (mnemonic, act') ∧
      ActionsAgree narrow.config.wordSize act' act := by
  obtain ⟨op, ws, hop, hws, hfound, rfl⟩ := instruction_eq_ok_iff.mp hact
  obtain ⟨ws', hws', hagree⟩ := h.operandsAt hws
  obtain ⟨act', hact', hagree⟩ := h.action hjump hagree hfound
  rw [← h.ip_eq] at hws'
  exact ⟨act', instruction_eq_ok_iff.mpr ⟨op, ws', h.opcode.trans hop, hws', hact', rfl⟩, hagree⟩

/-! ## Steps -/

/-- Both machines go on behind the instruction. -/
theorem proceed (h : narrow.Truncates wide) (behind : Nat) :
    (narrow.proceed behind).2.Truncates (wide.proceed behind).2 :=
  { h with
    ip_eq := rfl
    ticks_eq := congrArg (· + 1) h.ticks_eq }

theorem lt_size (h : narrow.Truncates wide) {address : UInt64}
    (hcell : address.toNat < wide.memory.size) : address.toNat < narrow.memory.size := by
  rwa [h.memory_eq, Memory.size_truncated]

/-- Both machines store. -/
theorem store (h : narrow.Truncates wide) {address word' word : UInt64}
    (hword : Congruent narrow.config.wordSize word' word)
    (hcell : address.toNat < wide.memory.size) :
    Truncates { narrow with memory := narrow.memory.set address word' (h.lt_size hcell) }
      { wide with memory := wide.memory.set address word hcell } := by
  have hcell' : address.toNat < (wide.memory.truncated narrow.config.wordMask).size := by
    rwa [Memory.size_truncated]
  have hmemory : narrow.memory.set address word' (h.lt_size hcell)
      = (wide.memory.truncated narrow.config.wordMask).set address word' hcell' := by
    congr 1
    exact h.memory_eq
  exact { h with
    fits := h.fits.set address word hcell
    memory_eq := hmemory.trans (Memory.set_truncated h.fits h.width_le hword hcell hcell') }

/-- What the wide machine performs, the narrow one does too. -/
theorem performs (h : narrow.Truncates wide) {behind : Nat} {act' act : Action}
    (hagree : ActionsAgree narrow.config.wordSize act' act)
    (hperforms : Performs wide behind act last) :
    ∃ last', Performs narrow behind act' last' ∧ last'.Truncates last := by
  cases hagree with
  | store address hword =>
      cases hperforms with
      | store hcell => exact ⟨_, .store (h.lt_size hcell), (h.store hword hcell).proceed behind⟩
  | draw address =>
      cases hperforms with
      | draw hcell =>
          -- both machines draw the same number
          let drawn := wide.draws.next wide.config.maxRandom wide.drawn
          have hnext : narrow.draws.next narrow.config.maxRandom narrow.drawn = drawn := by
            rw [h.draws_eq, h.maxRandom_eq, h.drawn_eq]
          have hdrawn : Truncates { narrow with drawn := drawn.2 } { wide with drawn := drawn.2 } :=
            { h with drawn_eq := rfl }
          refine ⟨_, .draw (h.lt_size hcell), ?_⟩
          simp only [hnext]
          exact (hdrawn.store (.refl _ drawn.1) hcell).proceed behind
  | read address =>
      cases hperforms with
      | readEnd hcell hinput =>
          exact ⟨_, .readEnd (h.lt_size hcell) (h.input_eq.trans hinput),
            (h.store (.refl _ 0) hcell).proceed behind⟩
      | @read _ word _ input hcell hinput hword =>
          have hread : Truncates { narrow with input } { wide with input } :=
            { h with input_eq := rfl }
          exact ⟨_, .read (h.lt_size hcell) (h.input_eq.trans hinput) hword,
            (hread.store (.refl _ word) hcell).proceed behind⟩
  | print text' text =>
      cases hperforms with
      | print =>
          refine ⟨_, .print, proceed ?_ behind⟩
          exact { h with }
  | halt =>
      cases hperforms with
      | halt =>
          refine ⟨_, .halt, proceed ?_ behind⟩
          exact { h with running_eq := rfl }

end Truncates

/-- **A step of the wide machine is followed by the narrow one.** -/
theorem exists_step_of_truncates (h : narrow.Truncates wide) (hjumps : ¬ wide.Jumps)
    (hstep : wide.step = (.ok (), last)) :
    ∃ last', narrow.step = (.ok (), last') ∧ last'.Truncates last ∧ ¬ narrow.Jumps := by
  obtain ⟨mnemonic, act, hinstruction, hperforms⟩ := exists_performs_of_step hstep
  rw [jumps_iff_of_instruction hinstruction] at hjumps
  obtain ⟨act', hinstruction', hagree⟩ := h.instruction hjumps hinstruction
  obtain ⟨last', hperforms', hlast'⟩ := h.performs hagree hperforms
  rw [← h.ip_eq] at hperforms'
  rw [jumps_iff_of_instruction hinstruction']
  exact ⟨last', (Ends.performed hinstruction' hperforms').step_eq, hlast', hjumps⟩

theorem exists_steps_of_truncates {n : Nat} (h : narrow.Truncates wide)
    (hsteps : Steps (fun machine => ¬ machine.Jumps) n wide last) :
    ∃ last', Steps (fun machine => ¬ machine.Jumps) n narrow last' ∧ last'.Truncates last := by
  induction hsteps generalizing narrow with
  | refl wide => exact ⟨narrow, .refl narrow, h⟩
  | cons hjumps hstep _ ih =>
      obtain ⟨next', hstep', hnext', hjumps'⟩ := exists_step_of_truncates h hjumps hstep
      obtain ⟨last', hsteps', hlast'⟩ := ih hnext'
      exact ⟨last', .cons hjumps' hstep' hsteps', hlast'⟩

end

theorem truncates_load {narrow wide : Config} (hsize : narrow.memorySize = wide.memorySize)
    (hrandom : narrow.maxRandom = wide.maxRandom) (hwidth : narrow.wordSize ≤ wide.wordSize)
    (input : List InputItem) (draws : Draws) (program : Program) :
    ((create narrow input draws).load program).Truncates
      ((create wide input draws).load program) where
  width_le := hwidth
  maxRandom_eq := hrandom
  program_eq := rfl
  fits := fits_load (fits_create wide input draws) program
  memory_eq := by
    show (Memory.blank narrow).clear = (Memory.blank wide).clear.truncated narrow.wordMask
    rw [(Memory.fits_blank narrow).clear_eq_blank, (Memory.fits_blank wide).clear_eq_blank,
      Memory.truncated_blank hsize]
  ip_eq := rfl
  ticks_eq := rfl
  running_eq := rfl
  input_eq := rfl
  draws_eq := rfl
  drawn_eq := rfl

/-- **A narrow machine shows the wide one modulo a power of two**, as long as no jump is executed.
The machines have the same number of cells, draw up to the same bound, and begin with the same
program, input and random numbers. If the wide one takes `n` steps, so does the narrow one, and
every cell of it holds what the cell of the wide one holds modulo two to the width. -/
theorem narrow_cells_mod_two_pow (narrow wide : Config)
    (hsize : narrow.memorySize = wide.memorySize) (hrandom : narrow.maxRandom = wide.maxRandom)
    (hwidth : narrow.wordSize ≤ wide.wordSize) (input : List InputItem) (draws : Draws)
    (program : Program) {n : Nat} {last : Machine}
    (hsteps : Steps (fun machine => ¬ machine.Jumps) n ((create wide input draws).load program)
      last) :
    ∃ last', Steps (fun machine => ¬ machine.Jumps) n ((create narrow input draws).load program)
        last' ∧
      last'.ip = last.ip ∧ last'.ticks = last.ticks ∧ last'.running = last.running ∧
      last'.memory.cells.toList.map UInt64.toNat
        = last.memory.cells.toList.map fun word => word.toNat % 2 ^ narrow.wordSize := by
  obtain ⟨last', hsteps', h⟩ := exists_steps_of_truncates
    (truncates_load hsize hrandom hwidth input draws program) hsteps
  have hconfig : last'.config = narrow :=
    hsteps'.preserves (P := fun reached => reached.config = narrow)
      (fun reached _ hreached => (step_changes reached).config.trans hreached) rfl
  refine ⟨last', hsteps', h.ip_eq, h.ticks_eq, h.running_eq, ?_⟩
  rw [h.memory_eq, hconfig, Memory.truncated, Array.toList_map, List.map_map]
  refine List.map_congr_left fun word _ => ?_
  rw [Function.comp_apply, UInt64.toNat_and, narrow.toNat_wordMask,
    Nat.and_two_pow_sub_one_eq_mod]

namespace Truncation.Sample

/-- `AREAD [0]`, `NOT [0]`, `SUB [1] 300`, `MOV [2] [0]`, `DPRINT [1]`, `HALT`. -/
def code : Program where
  words := #[36, 0, 6, 0, 13, 1, 300, 7, 2, 0, 34, 1, 255]

/-- The snowman has a code of fourteen bits. -/
def typed : List InputItem := [.ok '☃']

def wide : Config := (Config.default.withWordSize 16).withMemorySize 3

def narrow : Config := (Config.default.withWordSize 5).withMemorySize 3

end Truncation.Sample

open Truncation.Sample in
theorem narrow_cells_mod_two_pow_sample :
    ∃ last last', Steps (fun machine => ¬ machine.Jumps) 6
        ((create wide typed default).load code) last ∧
      last.memory.cells.toList.map UInt64.toNat = [55804, 65236, 55804] ∧
      Steps (fun machine => ¬ machine.Jumps) 6
        ((create narrow typed default).load code) last' ∧
      last'.ip = 13 ∧ last'.ticks = 6 ∧ last'.running = false ∧
      last'.memory.cells.toList.map UInt64.toNat = [28, 20, 28] := by
  let start := (create wide typed default).load code
  have hsome : (start.steps? (fun machine => ¬ machine.Jumps) 6).isSome = true := by decide +kernel
  have hseen : (start.steps? (fun machine => ¬ machine.Jumps) 6).map
      (fun last => (last.memory.cells.toList.map UInt64.toNat, last.ip, last.ticks, last.running))
      = some ([55804, 65236, 55804], 13, 6, false) := by
    decide +kernel
  obtain ⟨last, hlast⟩ := Option.isSome_iff_exists.mp hsome
  rw [hlast, Option.map_some] at hseen
  simp only [Option.some.injEq, Prod.mk.injEq] at hseen
  obtain ⟨hcells, hip, hticks, hrunning⟩ := hseen
  have hsteps := steps_of_steps? hlast
  obtain ⟨last', hsteps', hip', hticks', hrunning', hcells'⟩ :=
    narrow_cells_mod_two_pow narrow wide rfl rfl (by decide) typed _ code hsteps
  refine ⟨last, last', hsteps, hcells, hsteps', hip'.trans hip, hticks'.trans hticks,
    hrunning'.trans hrunning, ?_⟩
  have hmap : last.memory.cells.toList.map (fun word => word.toNat % 2 ^ narrow.wordSize)
      = (last.memory.cells.toList.map UInt64.toNat).map (· % 2 ^ narrow.wordSize) := by
    rw [List.map_map]
    rfl
  rw [hcells', hmap, hcells]
  decide

end Machine

end CellAsm
