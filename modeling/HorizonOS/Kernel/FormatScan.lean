import HorizonOS.Kernel.Printk

/-!
# Reading the format string

`console_vprintf` (include/kernel/console.c:160–218) and `serial_vprintf` (drivers/serial.c:88–146)
move one pointer over the format string, in three places: `p++` of the loop, after `%` and after
`%l`. The `switch` behind a `%` takes the terminating NUL for a conversion like any other unknown
character, and the loop's `p++` then steps over it.

The model here has the bytes in memory, whatever lies behind the NUL included, and records every
byte that is read.

* `scan_inside`: a string that does not end within a conversion is read up to its NUL, and the text
  printed is that of the model of `printk`.
* `scan_outside`: any other string is left.
* `vprintf_inside_iff`: the interpreters stay inside the string exactly if it does not end within a
  conversion.
-/

namespace HorizonOS.Kernel

open HorizonOS.Lib HorizonOS.Libc

/-! ## Model -/

/-- The loop of the interpreters, at most `fuel` iterations from `p` on, for a `switch` behind `%l`
    and one behind `%`: the characters printed and the offsets read. `none` stands for an argument
    of the wrong type and for the end of the fuel. -/
def scan (long spec : Byte → List Arg → Option (List Byte × List Arg)) (mem : ℕ → Byte) :
    (fuel p : ℕ) → List Arg → Option (List Byte × List ℕ)
  | 0, _, _ => none
  | fuel + 1, p, args =>
    if mem p = 0 then some ([], [p])
    else if mem p ≠ ascii '%' then do
      let (out, reads) ← scan long spec mem fuel (p + 1) args
      return (mem p :: out, p :: reads)
    else if mem (p + 1) = ascii 'l' then do
      let (text, args) ← long (mem (p + 2)) args
      let (out, reads) ← scan long spec mem fuel (p + 3) args
      return (text ++ out, p :: (p + 1) :: (p + 2) :: reads)
    else do
      let (text, args) ← spec (mem (p + 1)) args
      let (out, reads) ← scan long spec mem fuel (p + 2) args
      return (text ++ out, p :: (p + 1) :: reads)

/-- `console_vprintf` on the format string at offset 0 of `mem`. -/
def consoleScan (mem : ℕ → Byte) (fuel : ℕ) (args : List Arg) : Option (List Byte × List ℕ) :=
  scan consoleLong consoleSpec mem fuel 0 args

/-- `serial_vprintf` on the format string at offset 0 of `mem`. -/
def serialScan (mem : ℕ → Byte) (fuel : ℕ) (args : List Arg) : Option (List Byte × List ℕ) :=
  scan serialLong serialSpec mem fuel 0 args

/-- From `p` on `mem` holds the characters of `fmt` and a NUL. -/
def TextAt (mem : ℕ → Byte) : ℕ → List Byte → Prop
  | p, [] => mem p = 0
  | p, c :: fmt => mem p = c ∧ c ≠ 0 ∧ TextAt mem (p + 1) fmt

/-- The run returns and reads no byte behind offset `last`. -/
def ReadsUpTo (last : ℕ) (run : ℕ → Option (List Byte × List ℕ)) : Prop :=
  ∃ fuel out reads, run fuel = some (out, reads) ∧ ∀ i ∈ reads, i ≤ last

/-! ## The condition -/

/-- Where a scan of a format string is: in the text, behind a `%` or behind a `%l`. -/
inductive Within
  | text
  | percent
  | long
deriving DecidableEq

/-- The scan takes one character. -/
def Within.next : Within → Byte → Within
  | .text, c => if c = ascii '%' then .percent else .text
  | .percent, c => if c = ascii 'l' then .long else .text
  | .long, _ => .text

/-- The string ends within a conversion: with a `%` or a `%l` that belongs to no conversion in
    front of it. -/
def endsWithin (fmt : List Byte) : Bool := fmt.foldl Within.next .text ≠ .text

/-- The arguments of the complete conversions of a format string. -/
def asks : List Byte → List ArgKind
  | [] => []
  | c :: fmt =>
    if c ≠ ascii '%' then asks fmt
    else
      match fmt with
      | [] => []
      | c :: fmt =>
        if c = ascii 'l' then
          match fmt with
          | [] => []
          | c :: fmt => longKinds c ++ asks fmt
        else specKinds c ++ asks fmt

section EndsWithin

variable {c : Byte} {fmt : List Byte}

theorem endsWithin_text (hc : c ≠ ascii '%') : endsWithin (c :: fmt) = endsWithin fmt := by
  simp only [endsWithin, List.foldl_cons, Within.next, if_neg hc]

theorem endsWithin_spec (hc : c ≠ ascii 'l') :
    endsWithin (ascii '%' :: c :: fmt) = endsWithin fmt := by
  simp only [endsWithin, List.foldl_cons, Within.next, if_neg hc, reduceIte]

theorem endsWithin_long : endsWithin (ascii '%' :: ascii 'l' :: c :: fmt) = endsWithin fmt := by
  simp only [endsWithin, List.foldl_cons, Within.next, reduceIte]

end EndsWithin

/-! ## One iteration -/

section Steps

variable {long spec : Byte → List Arg → Option (List Byte × List Arg)} {mem : ℕ → Byte}
  {fuel p last : ℕ} {args args' : List Arg} {text out : List Byte} {reads : List ℕ}

/-- From `p` on the scan returns `out` and reads no byte behind offset `last`. -/
def Scans (long spec : Byte → List Arg → Option (List Byte × List Arg)) (mem : ℕ → Byte)
    (last p : ℕ) (args : List Arg) (out : List Byte) : Prop :=
  ∃ fuel reads, scan long spec mem fuel p args = some (out, reads) ∧ ∀ i ∈ reads, i ≤ last

theorem scans_nul (hp : mem p = 0) (hle : p ≤ last) : Scans long spec mem last p args [] :=
  ⟨1, [p], if_pos hp, List.forall_mem_singleton.mpr hle⟩

theorem scans_text (hp : mem p ≠ 0) (hc : mem p ≠ ascii '%') (hle : p ≤ last)
    (hrest : Scans long spec mem last (p + 1) args out) :
    Scans long spec mem last p args (mem p :: out) := by
  obtain ⟨fuel, reads, hscan, hreads⟩ := hrest
  refine ⟨fuel + 1, p :: reads, ?_, List.forall_mem_cons.mpr ⟨hle, hreads⟩⟩
  rw [scan, if_neg hp, if_pos hc, hscan]
  rfl

theorem scans_long (hp : mem p = ascii '%') (hl : mem (p + 1) = ascii 'l') (hle : p + 2 ≤ last)
    (htext : long (mem (p + 2)) args = some (text, args'))
    (hrest : Scans long spec mem last (p + 3) args' out) :
    Scans long spec mem last p args (text ++ out) := by
  obtain ⟨fuel, reads, hscan, hreads⟩ := hrest
  refine ⟨fuel + 1, p :: (p + 1) :: (p + 2) :: reads, ?_, ?_⟩
  · rw [scan, hp, if_neg (by decide), if_neg (not_not.mpr rfl), if_pos hl, htext]
    simp only [Option.bind_eq_bind, Option.bind_some, hscan, Option.pure_def]
  · simp only [List.forall_mem_cons]
    exact ⟨by omega, by omega, hle, hreads⟩

theorem scans_spec (hp : mem p = ascii '%') (hl : mem (p + 1) ≠ ascii 'l') (hle : p + 1 ≤ last)
    (htext : spec (mem (p + 1)) args = some (text, args'))
    (hrest : Scans long spec mem last (p + 2) args' out) :
    Scans long spec mem last p args (text ++ out) := by
  obtain ⟨fuel, reads, hscan, hreads⟩ := hrest
  refine ⟨fuel + 1, p :: (p + 1) :: reads, ?_, ?_⟩
  · rw [scan, hp, if_neg (by decide), if_neg (not_not.mpr rfl), if_neg hl, htext]
    simp only [Option.bind_eq_bind, Option.bind_some, hscan, Option.pure_def]
  · simp only [List.forall_mem_cons]
    exact ⟨by omega, hle, hreads⟩

/-- What an iteration that returns has read, and where it went on. -/
theorem scan_cases (h : scan long spec mem fuel p args = some (out, reads)) :
    p ∈ reads ∧ (mem p ≠ 0 → ∃ fuel' args' out' reads', reads' ⊆ reads ∧
      scan long spec mem fuel'
        (if mem p ≠ ascii '%' then p + 1 else if mem (p + 1) = ascii 'l' then p + 3 else p + 2)
        args' = some (out', reads')) := by
  cases fuel with
  | zero => cases h
  | succ fuel =>
    unfold scan at h
    split_ifs at h with h0 hc hl
    · cases h
      exact ⟨List.mem_singleton_self p, fun hne => absurd h0 hne⟩
    · obtain ⟨⟨out', reads'⟩, hrest, h⟩ := Option.bind_eq_some_iff.mp h
      cases h
      rw [if_pos hc]
      exact ⟨List.mem_cons_self, fun _ => ⟨fuel, args, out', reads', List.subset_cons_self _ _, hrest⟩⟩
    · obtain ⟨⟨text, args'⟩, -, h⟩ := Option.bind_eq_some_iff.mp h
      obtain ⟨⟨out', reads'⟩, hrest, h⟩ := Option.bind_eq_some_iff.mp h
      cases h
      rw [if_neg hc, if_pos hl]
      refine ⟨List.mem_cons_self, fun _ => ⟨fuel, args', out', reads', ?_, hrest⟩⟩
      exact fun i hi => List.mem_cons_of_mem _ (List.mem_cons_of_mem _ (List.mem_cons_of_mem _ hi))
    · obtain ⟨⟨text, args'⟩, -, h⟩ := Option.bind_eq_some_iff.mp h
      obtain ⟨⟨out', reads'⟩, hrest, h⟩ := Option.bind_eq_some_iff.mp h
      cases h
      rw [if_neg hc, if_neg hl]
      refine ⟨List.mem_cons_self, fun _ => ⟨fuel, args', out', reads', ?_, hrest⟩⟩
      exact fun i hi => List.mem_cons_of_mem _ (List.mem_cons_of_mem _ hi)

end Steps

/-! ## Whole strings -/

section Strings

variable {mem : ℕ → Byte}

/-- A string that ends within a conversion is left: the byte behind its NUL is read. -/
theorem scan_outside {long spec : Byte → List Arg → Option (List Byte × List Arg)}
    {fmt : List Byte} (hends : endsWithin fmt = true) {fuel p : ℕ} {args : List Arg}
    {out : List Byte} {reads : List ℕ} (hmem : TextAt mem p fmt)
    (h : scan long spec mem fuel p args = some (out, reads)) : p + fmt.length + 1 ∈ reads := by
  fun_induction asks fmt generalizing fuel p args out reads with
  | case1 => cases hends
  | case2 c fmt hc ih =>
    obtain ⟨hp, hne, hmem⟩ := hmem
    rw [endsWithin_text hc] at hends
    obtain ⟨fuel, args, out, reads', hsub, hrest⟩ := (scan_cases h).2 (hp ▸ hne)
    rw [if_pos (hp ▸ hc)] at hrest
    have hread := ih hends hmem hrest
    rw [List.length_cons, Nat.add_comm fmt.length, ← Nat.add_assoc]
    exact hsub hread
  | case3 c hc =>
    obtain ⟨hp, hne, hmem⟩ := hmem
    have hmem : mem (p + 1) = 0 := hmem
    obtain ⟨fuel, args, out, reads', hsub, hrest⟩ := (scan_cases h).2 (hp ▸ hne)
    rw [if_neg (hp ▸ hc), hmem, if_neg (by decide)] at hrest
    exact hsub (scan_cases hrest).1
  | case4 c hc =>
    obtain ⟨hp, hne, hl, -, hmem⟩ := hmem
    obtain ⟨fuel, args, out, reads', hsub, hrest⟩ := (scan_cases h).2 (hp ▸ hne)
    rw [if_neg (hp ▸ hc), if_pos hl] at hrest
    exact hsub (scan_cases hrest).1
  | case5 c hc c' fmt ih =>
    obtain ⟨hp, hne, hl, -, -, -, hmem⟩ := hmem
    rw [not_not.mp hc, endsWithin_long] at hends
    obtain ⟨fuel, args, out, reads', hsub, hrest⟩ := (scan_cases h).2 (hp ▸ hne)
    rw [if_neg (hp ▸ hc), if_pos hl] at hrest
    have hread := ih hends hmem hrest
    have hlen : p + (c :: ascii 'l' :: c' :: fmt).length + 1 = p + 3 + fmt.length + 1 := by
      simp only [List.length_cons]
      omega
    rw [hlen]
    exact hsub hread
  | case6 c hc c' fmt hl ih =>
    obtain ⟨hp, hne, hp', -, hmem⟩ := hmem
    rw [not_not.mp hc, endsWithin_spec hl] at hends
    obtain ⟨fuel, args, out, reads', hsub, hrest⟩ := (scan_cases h).2 (hp ▸ hne)
    rw [if_neg (hp ▸ hc), if_neg (hp' ▸ hl)] at hrest
    have hread := ih hends hmem hrest
    have hlen : p + (c :: c' :: fmt).length + 1 = p + 2 + fmt.length + 1 := by
      simp only [List.length_cons]
      omega
    rw [hlen]
    exact hsub hread

/-- Any other string is read to its NUL and not beyond, and the text printed is that of
    `consoleVprintf`. -/
theorem scan_inside {fmt : List Byte} (hends : endsWithin fmt = false) {p last : ℕ}
    {args : List Arg} (hmem : TextAt mem p fmt) (hargs : asks fmt <+: args.map Arg.kind)
    (hlast : p + fmt.length = last) :
    ∃ out, consoleVprintf fmt args = some out ∧
      Scans consoleLong consoleSpec mem last p args out := by
  fun_induction asks fmt generalizing p args with
  | case1 => exact ⟨[], by rw [consoleVprintf], scans_nul hmem hlast.le⟩
  | case2 c fmt hc ih =>
    obtain ⟨rfl, hne, hmem⟩ := hmem
    rw [endsWithin_text hc] at hends
    rw [List.length_cons] at hlast
    obtain ⟨out, hprint, hscan⟩ := ih hends hmem hargs (by omega)
    refine ⟨mem p :: out, ?_, scans_text hne hc (by omega) hscan⟩
    unfold consoleVprintf
    rw [if_pos hc, hprint, Option.map_some]
  | case3 c hc =>
    rw [not_not.mp hc] at hends
    cases hends
  | case4 c hc =>
    rw [not_not.mp hc] at hends
    cases hends
  | case5 c hc c' fmt ih =>
    obtain ⟨hp, -, hl, -, rfl, -, hmem⟩ := hmem
    rw [not_not.mp hc, endsWithin_long] at hends
    simp only [List.length_cons] at hlast
    obtain ⟨ks, hks⟩ := hargs
    rw [List.append_assoc] at hks
    obtain ⟨text, args', hlong, hrest⟩ := consoleLong_some hks.symm
    obtain ⟨out, hprint, hscan⟩ := ih hends hmem ⟨ks, hrest.symm⟩ (by omega)
    refine ⟨text ++ out, ?_, scans_long (hp.trans (not_not.mp hc)) hl (by omega) hlong hscan⟩
    unfold consoleVprintf
    rw [if_neg hc]
    simp only [reduceIte, hlong, hprint, Option.bind_eq_bind, Option.bind_some, Option.pure_def]
  | case6 c hc c' fmt hl ih =>
    obtain ⟨hp, -, rfl, -, hmem⟩ := hmem
    rw [not_not.mp hc, endsWithin_spec hl] at hends
    simp only [List.length_cons] at hlast
    obtain ⟨ks, hks⟩ := hargs
    rw [List.append_assoc] at hks
    obtain ⟨text, args', hspec, hrest⟩ := consoleSpec_some hks.symm
    obtain ⟨out, hprint, hscan⟩ := ih hends hmem ⟨ks, hrest.symm⟩ (by omega)
    refine ⟨text ++ out, ?_, scans_spec (hp.trans (not_not.mp hc)) hl (by omega) hspec hscan⟩
    unfold consoleVprintf
    rw [if_neg hc]
    simp only [if_neg hl, hspec, hprint, Option.bind_eq_bind, Option.bind_some, Option.pure_def]

theorem consoleScan_inside_iff {fmt : List Byte} (hmem : TextAt mem 0 fmt) {args : List Arg}
    (hargs : asks fmt <+: args.map Arg.kind) :
    ReadsUpTo fmt.length (fun fuel => consoleScan mem fuel args) ↔ endsWithin fmt = false := by
  constructor
  · rintro ⟨fuel, out, reads, hscan, hreads⟩
    by_contra hends
    have hread := scan_outside (Bool.not_eq_false _ ▸ hends) hmem hscan
    have := hreads _ hread
    omega
  · intro hends
    obtain ⟨out, -, fuel, reads, hscan⟩ := scan_inside hends hmem hargs (Nat.zero_add _)
    exact ⟨fuel, out, reads, hscan⟩

theorem serialScan_eq : serialScan = consoleScan := by
  funext mem fuel args
  have hlong : serialLong = consoleLong := by
    funext c args
    exact (long_agree c args).symm
  have hspec : serialSpec = consoleSpec := by
    funext c args
    exact (spec_agree c args).symm
  rw [serialScan, consoleScan, hlong, hspec]

/-- **The interpreters and the end of the format string.** With arguments for its conversions, each
    of the two interpreters returns and reads no byte behind the terminating NUL if and only if the
    format string does not end within a conversion. -/
theorem vprintf_inside_iff (mem : ℕ → Byte) {fmt : List Byte} (hmem : TextAt mem 0 fmt)
    {args : List Arg} (hargs : asks fmt <+: args.map Arg.kind) :
    (ReadsUpTo fmt.length (fun fuel => consoleScan mem fuel args) ↔ endsWithin fmt = false) ∧
    (ReadsUpTo fmt.length (fun fuel => serialScan mem fuel args) ↔ endsWithin fmt = false) := by
  have hconsole := consoleScan_inside_iff hmem hargs
  refine ⟨hconsole, ?_⟩
  rw [serialScan_eq]
  exact hconsole

end Strings

/-- `%d%` in memory, and a `%` behind its NUL again. -/
def percentMem : ℕ → Byte
  | 0 => ascii '%'
  | 1 => ascii 'd'
  | 2 => ascii '%'
  | 4 => ascii '%'
  | _ => 0

/-- The format `%d` with its argument is read up to its NUL. -/
theorem vprintf_inside_iff_d :
    let mem : ℕ → Byte := fun i => if i = 2 then 0 else percentMem i
    TextAt mem 0 [ascii '%', ascii 'd'] ∧
      ReadsUpTo 2 (fun fuel => consoleScan mem fuel [.int 5]) ∧
      ReadsUpTo 2 (fun fuel => serialScan mem fuel [.int 5]) := by
  intro mem
  have hmem : TextAt mem 0 [ascii '%', ascii 'd'] := ⟨rfl, by decide, rfl, by decide, rfl⟩
  have hargs : asks [ascii '%', ascii 'd'] <+: [Arg.int 5].map Arg.kind := by decide
  obtain ⟨hconsole, hserial⟩ := vprintf_inside_iff mem hmem hargs
  exact ⟨hmem, hconsole.mpr (by decide), hserial.mpr (by decide)⟩

/-- The format `%d%` is read beyond its NUL, up to the next one. -/
theorem vprintf_reads_behind :
    TextAt percentMem 0 [ascii '%', ascii 'd', ascii '%'] ∧
      consoleScan percentMem 4 [.int 5] =
        some ([ascii '5', ascii '%', 0, ascii '%', 0], [0, 1, 2, 3, 4, 5, 6]) ∧
      serialScan percentMem 4 [.int 5] =
        some ([ascii '5', ascii '%', 0, ascii '%', 0], [0, 1, 2, 3, 4, 5, 6]) := by
  refine ⟨⟨rfl, by decide, rfl, by decide, rfl, by decide, rfl⟩, ?_, ?_⟩
  · decide +kernel
  · decide +kernel

end HorizonOS.Kernel
