import BaseCode.Backtrace.Model

/-!
# Is the crash handler's string handling safe?

The arguments are neither counted nor cut to the length of a row, the text after the first
`'['` of a line is copied whatever its length, and that first `'['` need not be the one before
the address. `handler_safe_iff` says exactly which arguments and lines escape this, for all
contents of the memory around the arrays.
-/

namespace BaseCode.Backtrace
open Foundation

/-- The table is not overrun and every stored argument is terminated inside its row. -/
def InitSafe (argv : List Str) : Prop :=
  ∀ mem, (backtraceInitArgv mem argv).Within (rows * rowSize) ∧
    ∀ i < argv.length, ∃ j < rowSize, (backtraceInitArgv mem argv).byte (i * rowSize + j) = 0

def isHexDigit (b : UInt8) : Bool := (48 ≤ b && b ≤ 57) || (97 ≤ b && b ≤ 102)

/-- An address as `%p` prints it: `0x` and hexadecimal digits. -/
def isAddress : List UInt8 → Bool
  | 48 :: 120 :: d :: ds => (d :: ds).all isHexDigit
  | _ => false

/-- The line is `before[addr]`, as `backtrace_symbols` ends its lines. -/
def EndsIn (line before addr : List UInt8) : Prop :=
  isAddress addr = true ∧ line = before ++ openBracket :: (addr ++ [closeBracket])

/-- No array is overrun, and the address of the line is the one in the command. -/
structure FrameSafe (f : Frame) (line : List UInt8) : Prop where
  addrBuf : f.addrBuf.Within addrSize
  name : f.name.Within nameSize
  cmd : f.cmd.Within cmdSize
  address : ∀ before addr, EndsIn line before addr → f.system.map Command.addr = some addr

/-- `print_addr2line` on a line, after the arguments were stored, whatever the memory around
the arrays holds. -/
def LineSafe (argv : List Str) (line : Str) : Prop :=
  ∀ mem st, FrameSafe (printAddr2line (backtraceInitArgv mem argv) st line) line.chars

/-- At least one and at most 67 characters follow the first `'['`, and no `'['` comes before
that of the address, if there is one. -/
structure LineFits (line : List UInt8) : Prop where
  length : ∀ before rest, line = before ++ openBracket :: rest → openBracket ∉ before →
    1 ≤ rest.length ∧ rest.length ≤ addrSize
  first : ∀ before addr, EndsIn line before addr → openBracket ∉ before

section Table

variable {table : Region UInt8} {i k size : Nat} {args : List Str}

theorem initArgs_byte_of_lt (hk : k < i * rowSize) :
    (initArgs table i args).byte k = table.byte k := by
  induction args generalizing table i with
  | nil => rfl
  | cons arg args ih =>
    rw [initArgs, ih (by simp only [rowSize] at *; omega), Region.byte_strncpy, if_neg (by omega)]

/-- Row `i + j` holds argument `j`, padded with terminators or cut to the row. -/
theorem initArgs_byte_row {j c : Nat} {arg : Str} (harg : args[j]? = some arg)
    (hc : c < rowSize) :
    (initArgs table i args).byte ((i + j) * rowSize + c) = arg.chars.getD c 0 := by
  induction args generalizing table i j with
  | nil => simp at harg
  | cons arg' args ih =>
    rw [initArgs]
    cases j with
    | zero =>
      obtain rfl : arg' = arg := by simpa using harg
      -- the later rows do not reach back into this one
      rw [initArgs_byte_of_lt (by simp only [rowSize] at *; omega), Region.byte_strncpy,
        if_pos (by simp only [rowSize] at *; omega)]
      congr 1
      simp only [Nat.add_zero]
      omega
    | succ j =>
      have hrow : (initArgs (table.strncpy (i * rowSize) arg'.chars rowSize) (i + 1) args).byte
          ((i + 1 + j) * rowSize + c) = arg.chars.getD c 0 := ih (by simpa using harg)
      rw [← hrow]
      congr 1
      simp only [rowSize]
      omega

theorem initArgs_within :
    (initArgs table i args).Within size ↔
      table.Within size ∧ ∀ j < args.length, (i + j + 1) * rowSize ≤ size := by
  induction args generalizing table i with
  | nil => simp [initArgs]
  | cons arg args ih =>
    rw [initArgs, ih, Region.within_strncpy, and_assoc]
    refine and_congr_right fun _ => ?_
    constructor
    · rintro ⟨h0, h⟩ j hj
      cases j with
      | zero => simpa [Nat.add_mul] using h0
      | succ j =>
        have hrow := h j (by simpa using hj)
        simpa [Nat.add_comm, Nat.add_left_comm] using hrow
    · intro h
      refine ⟨by simpa [Nat.add_mul] using h 0 (by simp), ?_⟩
      intro j hj
      have hrow := h (j + 1) (by simpa using hj)
      simpa [Nat.add_comm, Nat.add_left_comm] using hrow

theorem backtraceInitArgv_within (mem : List UInt8) (argv : List Str) :
    (backtraceInitArgv mem argv).Within (rows * rowSize) ↔ argv.length ≤ rows := by
  rw [backtraceInitArgv, initArgs_within, Region.within_store, List.length_replicate]
  constructor
  · rintro ⟨-, h⟩
    by_contra hlt
    have hrow := h rows (by omega)
    simp only [rows, rowSize] at hrow
    omega
  · intro h
    refine ⟨⟨by simp [Region.Within], by omega⟩, ?_⟩
    intro j hj
    simp only [rows, rowSize] at *
    omega

theorem backtraceInitArgv_byte (mem : List UInt8) {argv : List Str} {i c : Nat} {arg : Str}
    (harg : argv[i]? = some arg) (hc : c < rowSize) :
    (backtraceInitArgv mem argv).byte (i * rowSize + c) = arg.chars.getD c 0 := by
  have h : (backtraceInitArgv mem argv).byte ((0 + i) * rowSize + c) = arg.chars.getD c 0 :=
    initArgs_byte_row harg hc
  rwa [Nat.zero_add] at h

end Table

/-- The arguments fit the table exactly when there are at most ten of them, each shorter than
a row. -/
theorem initSafe_iff (argv : List Str) :
    InitSafe argv ↔ argv.length ≤ rows ∧ ∀ a ∈ argv, a.chars.length < rowSize := by
  -- a row is terminated exactly when its argument is shorter
  have hrow : ∀ mem i arg, argv[i]? = some arg →
      ((∃ j < rowSize, (backtraceInitArgv mem argv).byte (i * rowSize + j) = 0) ↔
        arg.chars.length < rowSize) := by
    intro mem i arg harg
    constructor
    · rintro ⟨j, hj, hz⟩
      rw [backtraceInitArgv_byte mem harg hj, CString.getD_eq_zero_iff] at hz
      omega
    · intro h
      refine ⟨_, h, ?_⟩
      rw [backtraceInitArgv_byte mem harg h, CString.getD_eq_zero_iff]
  constructor
  · intro h
    refine ⟨(backtraceInitArgv_within [] argv).mp (h []).1, ?_⟩
    intro a ha
    obtain ⟨i, hi⟩ := List.mem_iff_getElem?.mp ha
    obtain ⟨hlt, -⟩ := List.getElem?_eq_some_iff.mp hi
    exact (hrow [] i a hi).mp ((h []).2 i hlt)
  · rintro ⟨hlen, hshort⟩ mem
    refine ⟨(backtraceInitArgv_within mem argv).mpr hlen, ?_⟩
    intro i hi
    exact (hrow mem i _ (List.getElem?_eq_getElem hi)).mpr (hshort _ (List.getElem_mem hi))

section Lines

variable {mem : List UInt8} {arg0 : Str} {args : List Str}

theorem backtraceInitArgv_byte_zero {c : Nat} (hc : c < rowSize) :
    (backtraceInitArgv mem (arg0 :: args)).byte c = arg0.chars.getD c 0 := by
  have h : (backtraceInitArgv mem (arg0 :: args)).byte (0 * rowSize + c) = arg0.chars.getD c 0 :=
    backtraceInitArgv_byte mem rfl hc
  rwa [Nat.zero_mul, Nat.zero_add] at h

/-- The stored program name, if it is terminated in its row. -/
theorem cstr_of_short (h : arg0.chars.length < rowSize) :
    (backtraceInitArgv mem (arg0 :: args)).cstr = arg0.chars := by
  apply Region.cstr_eq arg0.noNul
  · intro i hi
    exact backtraceInitArgv_byte_zero (by omega)
  · rw [backtraceInitArgv_byte_zero h, CString.getD_eq_zero_iff]

/-- Otherwise it fills its row and is read on. -/
theorem rowSize_le_length_cstr (h : rowSize ≤ arg0.chars.length) :
    rowSize ≤ (backtraceInitArgv mem (arg0 :: args)).cstr.length := by
  apply Region.le_length_cstr
  intro i hi hz
  rw [backtraceInitArgv_byte_zero hi, CString.getD_eq_zero_iff] at hz
  omega

end Lines

@[simp] theorem Command.length_text (c : Command) :
    c.text.length = 17 + c.name.length + c.addr.length := by
  have he : (ascii "addr2line -e ").length = 13 := by decide
  have hi : (ascii " -i ").length = 4 := by decide
  simp only [Command.text, List.length_append, he, hi]
  omega

section Frames

variable {table : Region UInt8} {st : Stack} {line : Str} {before rest : List UInt8}

/-- A line without a bracket is left alone; it does not end in an address either. -/
theorem frameSafe_of_notMem (h : openBracket ∉ line.chars) :
    FrameSafe (printAddr2line table st line) line.chars := by
  simp only [printAddr2line, strchr_of_notMem h]
  refine ⟨Region.within_cleared, Region.within_cleared, Region.within_cleared, ?_⟩
  rintro before addr ⟨-, hline⟩
  rw [hline] at h
  exact absurd (List.mem_append_right _ List.mem_cons_self) h

/-- The two texts that a line with a bracket puts in the command. -/
def addrText (st : Stack) (rest : List UInt8) : List UInt8 :=
  ((Region.cleared addrSize st.addrBuf).strncpy 0 rest (sizeSub (rest.length + 1) 2)).cstr

def nameText (table : Region UInt8) (st : Stack) : List UInt8 :=
  ((Region.cleared nameSize st.name).strncpy 0 table.cstr table.cstr.length).cstr

theorem print_of_append (hline : line.chars = before ++ openBracket :: rest)
    (hb : openBracket ∉ before) :
    printAddr2line table st line = {
      cmd := (Region.cleared cmdSize st.cmd).store 0
        (Command.text ⟨nameText table st, addrText st rest⟩ ++ [0])
      addrBuf := (Region.cleared addrSize st.addrBuf).strncpy 0 rest (sizeSub (rest.length + 1) 2)
      name := (Region.cleared nameSize st.name).strncpy 0 table.cstr table.cstr.length
      system := some ⟨nameText table st, addrText st rest⟩ } := by
  simp only [printAddr2line, hline, strchr_append hb, List.drop_one, List.tail_cons,
    List.length_cons, nameText, addrText]

/-- What is asked of a line with a bracket: of the length given to the first `strncpy`, of the
lengths of the program name and of the command, and of the address. -/
theorem frameSafe_of_append (hline : line.chars = before ++ openBracket :: rest)
    (hb : openBracket ∉ before) :
    FrameSafe (printAddr2line table st line) line.chars ↔
      sizeSub (rest.length + 1) 2 ≤ addrSize ∧ table.cstr.length ≤ nameSize ∧
      17 + (nameText table st).length + (addrText st rest).length + 1 ≤ cmdSize ∧
      ∀ before' addr, EndsIn line.chars before' addr → addrText st rest = addr := by
  rw [print_of_append hline hb]
  have haddr : ((Region.cleared addrSize st.addrBuf).strncpy 0 rest
      (sizeSub (rest.length + 1) 2)).Within addrSize ↔
      sizeSub (rest.length + 1) 2 ≤ addrSize := by
    rw [Region.within_strncpy, Nat.zero_add, and_iff_right Region.within_cleared]
  have hname : ((Region.cleared nameSize st.name).strncpy 0 table.cstr
      table.cstr.length).Within nameSize ↔ table.cstr.length ≤ nameSize := by
    rw [Region.within_strncpy, Nat.zero_add, and_iff_right Region.within_cleared]
  have hcmd : ((Region.cleared cmdSize st.cmd).store 0
      (Command.text ⟨nameText table st, addrText st rest⟩ ++ [0])).Within cmdSize ↔
      17 + (nameText table st).length + (addrText st rest).length + 1 ≤ cmdSize := by
    rw [Region.within_store, Nat.zero_add, List.length_append, Command.length_text,
      and_iff_right Region.within_cleared, List.length_singleton]
  constructor
  · intro h
    refine ⟨haddr.mp h.addrBuf, hname.mp h.name, hcmd.mp h.cmd, ?_⟩
    intro before' addr hends
    have hsys := h.address before' addr hends
    simp only [Option.map_some, Option.some.injEq] at hsys
    exact hsys
  · rintro ⟨h1, h2, h3, h4⟩
    refine ⟨haddr.mpr h1, hname.mpr h2, hcmd.mpr h3, ?_⟩
    intro before' addr hends
    rw [Option.map_some, h4 before' addr hends]

/-- There is one first bracket. -/
theorem rest_unique {before' rest' : List UInt8}
    (h : before ++ openBracket :: rest = before' ++ openBracket :: rest')
    (hb : openBracket ∉ before) (hb' : openBracket ∉ before') : rest = rest' := by
  have hstr := strchr_append hb rest
  rw [h, strchr_append hb' rest'] at hstr
  cases hstr
  rfl

/-- The text between the first bracket and the last character of the line, if it fits. -/
theorem addrText_of_fits (st : Stack) (h0 : 0 ∉ rest) (h1 : 1 ≤ rest.length)
    (h2 : rest.length ≤ addrSize) :
    sizeSub (rest.length + 1) 2 = rest.length - 1 ∧
      addrText st rest = rest.take (rest.length - 1) := by
  have hn : sizeSub (rest.length + 1) 2 = rest.length - 1 := by
    simp only [addrSize] at h2
    rw [sizeSub_of_le (by omega) (by omega)]
    omega
  refine ⟨hn, ?_⟩
  rw [addrText, hn]
  exact Region.cstr_strncpy_cleared h0 (by omega) (by omega)

/-- A stack without a zero byte near behind the arrays. -/
def dirty : Stack := ⟨[], List.replicate cmdSize 1, List.replicate cmdSize 1⟩

/-- On such a stack a line that is safe has at most 67 characters after the bracket, and the
program name is terminated. -/
theorem fits_of_frameSafe (hline : line.chars = before ++ openBracket :: rest)
    (hb : openBracket ∉ before) (h0 : 0 ∉ rest) (hlt : rest.length + 1 < 2 ^ 64)
    (h : FrameSafe (printAddr2line table dirty line) line.chars) :
    1 ≤ rest.length ∧ rest.length ≤ addrSize ∧ table.cstr.length < nameSize := by
  rw [frameSafe_of_append hline hb] at h
  obtain ⟨haddr, hname, hcmd, -⟩ := h
  have h1 : 1 ≤ rest.length := by
    by_contra hnil
    -- `strlen(p) - 2` is a huge length
    rw [sizeSub_of_lt (by omega) (by omega)] at haddr
    simp only [addrSize] at haddr
    omega
  rw [sizeSub_of_le (by omega) hlt] at haddr
  refine ⟨h1, ?_, ?_⟩
  · by_contra hlong
    have hfull : addrSize + cmdSize ≤ (addrText dirty rest).length := by
      rw [addrText, sizeSub_of_le (by omega) hlt]
      exact Region.length_cstr_full (by decide) cmdSize h0 (by omega) (by omega)
    omega
  · by_contra hlong
    have hfull : nameSize + cmdSize ≤ (nameText table dirty).length :=
      Region.length_cstr_full (by decide) cmdSize Region.zero_notMem_cstr (Nat.le_refl _)
        (by omega)
    omega

/-- A bracket before that of the address makes the text longer than the address. -/
theorem notMem_of_text {before' addr : List UInt8} (hb : openBracket ∉ before)
    (hline : before ++ openBracket :: rest =
      before' ++ openBracket :: (addr ++ [closeBracket]))
    (htext : rest.take (rest.length - 1) = addr) : openBracket ∉ before' := by
  intro hmem
  obtain ⟨b₁, b₂, rfl, hb₁⟩ := List.eq_append_cons_of_mem hmem
  rw [List.append_assoc, List.cons_append] at hline
  have hrest := rest_unique hline hb hb₁
  have hlen := congrArg List.length htext
  rw [List.length_take, hrest] at hlen
  simp only [List.length_append, List.length_cons, List.length_nil] at hlen
  omega

/-- The part of a line behind a bracket is a string too. -/
theorem rest_of_line (hline : line.chars = before ++ openBracket :: rest) :
    0 ∉ rest ∧ rest.length + 1 < 2 ^ 64 := by
  constructor
  · intro hz
    apply line.noNul
    rw [hline]
    exact List.mem_append_right _ (List.mem_cons_of_mem _ hz)
  · have hfits := line.fits
    rw [hline, List.length_append, List.length_cons] at hfits
    omega

section Stored

variable {arg0 : Str} {args : List Str}

/-- A short program name and a line that fits are safe, whatever lies around the arrays. -/
theorem lineSafe_of_fits (hline : line.chars = before ++ openBracket :: rest)
    (hb : openBracket ∉ before) (hshort : arg0.chars.length < rowSize)
    (hfits : LineFits line.chars) : LineSafe (arg0 :: args) line := by
  intro mem st
  obtain ⟨h0, -⟩ := rest_of_line hline
  obtain ⟨h1, h2⟩ := hfits.length before rest hline hb
  obtain ⟨hn, htext⟩ := addrText_of_fits st h0 h1 h2
  have hname : nameText (backtraceInitArgv mem (arg0 :: args)) st = arg0.chars := by
    have hlt : arg0.chars.length < nameSize := hshort
    rw [nameText, cstr_of_short hshort,
      Region.cstr_strncpy_cleared arg0.noNul (Nat.le_refl _) hlt, List.take_length]
  rw [frameSafe_of_append hline hb, hn, htext, hname, cstr_of_short hshort]
  refine ⟨by omega, Nat.le_of_lt hshort, ?_, ?_⟩
  · rw [List.length_take]
    simp only [addrSize, rowSize, cmdSize] at *
    omega
  · intro before' addr hends
    have hrest := rest_unique (hline.symm.trans hends.2) hb (hfits.first before' addr hends)
    rw [hrest, List.length_append, List.length_singleton, Nat.add_sub_cancel, List.take_left]

/-- One stack that is not cleared behind the arrays is enough to tell. -/
theorem fits_of_lineSafe (hline : line.chars = before ++ openBracket :: rest)
    (hb : openBracket ∉ before) (h : LineSafe (arg0 :: args) line) :
    arg0.chars.length < rowSize ∧ LineFits line.chars := by
  have hframe := h [] dirty
  obtain ⟨h0, hlt⟩ := rest_of_line hline
  obtain ⟨h1, h2, hname⟩ := fits_of_frameSafe hline hb h0 hlt hframe
  refine ⟨?_, ?_, ?_⟩
  · by_contra hlong
    have hfull : rowSize ≤ (backtraceInitArgv [] (arg0 :: args)).cstr.length :=
      rowSize_le_length_cstr (Nat.le_of_not_lt hlong)
    exact absurd hname (Nat.not_lt_of_le hfull)
  · intro before' rest' hline' hb'
    rw [← rest_unique (hline.symm.trans hline') hb hb']
    exact ⟨h1, h2⟩
  · intro before' addr hends
    obtain ⟨-, htext⟩ := addrText_of_fits dirty h0 h1 h2
    obtain ⟨-, -, -, haddr⟩ := (frameSafe_of_append hline hb).mp hframe
    have htake := htext.symm.trans (haddr before' addr hends)
    exact notMem_of_text hb (hline.symm.trans hends.2) htake

end Stored

end Frames

/-- A line is safe exactly when it has no bracket, or the program name is terminated in its row
and the line fits. -/
theorem lineSafe_iff (arg0 : Str) (args : List Str) (line : Str) :
    LineSafe (arg0 :: args) line ↔
      (openBracket ∈ line.chars → arg0.chars.length < rowSize ∧ LineFits line.chars) := by
  by_cases hmem : openBracket ∈ line.chars
  · obtain ⟨before, rest, hline, hb⟩ := List.eq_append_cons_of_mem hmem
    constructor
    · exact fun h _ => fits_of_lineSafe hline hb h
    · intro h
      obtain ⟨hshort, hfits⟩ := h hmem
      exact lineSafe_of_fits hline hb hshort hfits
  · simp only [hmem, false_imp_iff, iff_true]
    intro mem st
    exact frameSafe_of_notMem hmem

/-- Exactly when storing the arguments and printing a line are safe. -/
theorem handler_safe_iff (arg0 : Str) (args : List Str) (line : Str) :
    (InitSafe (arg0 :: args) ↔ (arg0 :: args).length ≤ rows ∧
      ∀ a ∈ arg0 :: args, a.chars.length < rowSize) ∧
    (LineSafe (arg0 :: args) line ↔
      (openBracket ∈ line.chars → arg0.chars.length < rowSize ∧ LineFits line.chars)) :=
  ⟨initSafe_iff (arg0 :: args), lineSafe_iff arg0 args line⟩

/-- A program whose path has a bracket, and a line of its stack trace. -/
def bracketProgram : Str := ⟨ascii "./a[1]", by decide, by decide⟩

def bracketLine : Str := ⟨ascii "./a[1](main+0x10) [0x400a10]", by decide, by decide⟩

/-- The text cut out of that line is not its address. -/
theorem handler_wrong_address :
    (printAddr2line (backtraceInitArgv [] [bracketProgram]) ⟨[], [], []⟩ bracketLine).system =
      some ⟨ascii "./a[1]", ascii "1](main+0x10) [0x400a10"⟩ ∧
    ¬ LineSafe [bracketProgram] bracketLine := by
  refine ⟨by decide +kernel, ?_⟩
  rw [lineSafe_iff]
  intro h
  have hfirst := (h (by decide)).2.first (ascii "./a[1](main+0x10) ") (ascii "0x400a10")
    ⟨by decide, by decide⟩
  exact hfirst (by decide)

end BaseCode.Backtrace
