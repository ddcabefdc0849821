import Xinu.ShellCommands

/-!
# The error exits of the shell

For a command that is not built in, the shell opens the files of its
redirections, creates a process and stores the arguments, and each of these can
fail.  No exit undoes what came before it: what a turn of the loop has opened
and created is counted here, for every outcome of the calls.
-/

namespace Xinu.Shell

open ByteMemory Lexan
open Namespace (Ch Str)

structure Cmdent where
  cname : List Ch
  cbuiltin : Bool

/-- One turn of the loop: what `lexan` gives and how the calls end. -/
structure Turn where
  scan : Result
  /-- `open(NAMESPACE, inname, "ro")`. -/
  openIn : ℤ
  /-- `open(NAMESPACE, outname, "w")`. -/
  openOut : ℤ
  child : ℤ
  addargs : Word
  /-- What a built-in command returns. -/
  builtin : ℤ

/-- Files that the shell has opened and processes that it has created. -/
structure Held where
  files : List ℤ
  procs : List ℤ
  deriving DecidableEq

inductive Ending where
  | syntaxError
  | emptyLine
  | notFound
  | bgError
  | ranBuiltin
  | exit
  | inputError
  | outputError
  | creatError
  | launched
  deriving DecidableEq

/-- The turn ends with a message about an error in a line that `lexan` has
accepted, or in carrying it out. -/
def Ending.failed : Ending → Bool
  | .syntaxError | .notFound | .bgError | .inputError | .outputError
  | .creatError => true
  | _ => false

def SHELL_EXIT : ℤ := -3

/-! ## shell.c -/

/-- The comparison of a command's name with the first token. -/
def sameName (cmp : Str) : List Ch → ℕ → Bool
  | [], k => cmp k = NULLCH
  | c :: src, k => cmp k = c && sameName cmp src (k + 1)

def lookup (cmdtab : List Cmdent) (tokbuf : Str) : Option Cmdent :=
  cmdtab.find? fun e => sameName tokbuf e.cname 0

def Held.opened (h : Held) (d : ℤ) : Held := { h with files := d :: h.files }

def Held.created (h : Held) (pid : ℤ) : Held := { h with procs := pid :: h.procs }

/-- From the creation of the process on. -/
def spawn (t : Turn) (h : Held) : Held × Ending :=
  if t.child = SYSERR.toInt then (h, .creatError)
  else if t.addargs = SYSERR then (h.created t.child, .creatError)
  else (h.created t.child, .launched)

def redirectOutput (t : Turn) (q : Request) (h : Held) : Held × Ending :=
  if q.outname.isSome then
    if t.openOut = SYSERR.toInt then (h, .outputError)
    else spawn t (h.opened t.openOut)
  else spawn t h

def redirectInput (t : Turn) (q : Request) (h : Held) : Held × Ending :=
  if q.inname.isSome then
    if t.openIn = SYSERR.toInt then (h, .inputError)
    else redirectOutput t q (h.opened t.openIn)
  else redirectOutput t q h

/-- From the tokens to the next prompt. -/
def turn (cmdtab : List Cmdent) (t : Turn) (h : Held) : Held × Ending :=
  let r := t.scan
  if r.ret = SYSERR.toInt then (h, .syntaxError)
  else if r.ret = 0 then (h, .emptyLine)
  else
    match parse r.scan.tok r.scan.toktyp r.ret.toNat (r.tlen.getD 0) with
    | none => (h, .syntaxError)
    | some q =>
        match lookup cmdtab r.scan.tokbuf with
        | none => (h, .notFound)
        | some e =>
            if e.cbuiltin then
              if q.inname.isSome || q.outname.isSome || q.backgnd then (h, .bgError)
              else if t.builtin = SHELL_EXIT then (h, .exit) else (h, .ranBuiltin)
            else redirectInput t q h

def turns (cmdtab : List Cmdent) (ts : List Turn) (h : Held) : Held :=
  ts.foldl (fun h t => (turn cmdtab t h).1) h

/-! ## What is left behind -/

/-- The request of a turn that gets to the opening of files. -/
def Runs (cmdtab : List Cmdent) (t : Turn) (q : Request) : Prop :=
  t.scan.ret ≠ SYSERR.toInt ∧ t.scan.ret ≠ 0 ∧
    parse t.scan.scan.tok t.scan.scan.toktyp t.scan.ret.toNat (t.scan.tlen.getD 0) =
      some q ∧
    ∃ e, lookup cmdtab t.scan.scan.tokbuf = some e ∧ e.cbuiltin = false

def Opens (t : Turn) (q : Request) : Prop :=
  (q.inname.isSome → t.openIn ≠ SYSERR.toInt) ∧
    (q.outname.isSome → t.openOut ≠ SYSERR.toInt)

/-- The first call that fails comes before anything is opened or created: when
the output cannot be opened no input was, when `create` fails there is no
redirection, and `addargs` does not fail. -/
structure NothingBefore (t : Turn) (q : Request) : Prop where
  output : q.outname.isSome → t.openOut = SYSERR.toInt → q.inname.isSome →
    t.openIn = SYSERR.toInt
  create : Opens t q → t.child = SYSERR.toInt →
    q.inname.isSome = false ∧ q.outname.isSome = false
  addargs : Opens t q → t.child ≠ SYSERR.toInt → t.addargs ≠ SYSERR

/-- A turn that ends with an error message leaves nothing behind. -/
def Clean (cmdtab : List Cmdent) (t : Turn) (h : Held) : Prop :=
  (turn cmdtab t h).2.failed → (turn cmdtab t h).1 = h

section Exits

variable {cmdtab : List Cmdent} {t : Turn} {q : Request} {h : Held}

theorem opened_ne (h h₀ : Held) (d : ℤ) (hlen : h₀.files.length ≤ h.files.length) :
    h.opened d ≠ h₀ := by
  intro heq
  have := congrArg (fun h : Held => h.files.length) heq
  simp only [Held.opened, List.length_cons] at this
  omega

theorem created_ne (h h₀ : Held) (pid : ℤ) (hprocs : h.procs = h₀.procs) :
    h.created pid ≠ h₀ := by
  intro heq
  have := congrArg (fun h : Held => h.procs.length) heq
  simp only [Held.created, List.length_cons, hprocs] at this
  omega

theorem spawn_clean (h h₀ : Held) (hprocs : h.procs = h₀.procs) :
    ((spawn t h).2.failed → (spawn t h).1 = h₀) ↔
      (t.child = SYSERR.toInt → h = h₀) ∧
        (t.child ≠ SYSERR.toInt → t.addargs ≠ SYSERR) := by
  unfold spawn
  by_cases hchild : t.child = SYSERR.toInt
  · rw [if_pos hchild]
    exact ⟨fun hclean => ⟨fun _ => hclean rfl, fun hne => absurd hchild hne⟩,
      fun hcond _ => hcond.1 hchild⟩
  · rw [if_neg hchild]
    by_cases hargs : t.addargs = SYSERR
    · rw [if_pos hargs]
      refine iff_of_false (fun hclean => ?_) fun hcond => hcond.2 hchild hargs
      exact created_ne h h₀ t.child hprocs (hclean rfl)
    · rw [if_neg hargs]
      exact ⟨fun _ => ⟨fun hsys => absurd hsys hchild, fun _ => hargs⟩,
        fun _ hfailed => absurd hfailed (by simp [Ending.failed])⟩

/-- When a file was opened, `create` and `addargs` must both succeed. -/
theorem spawn_after_redirect
    {h' : Held} (hopened : h' ≠ h) (hprocs : h'.procs = h.procs) (hopens : Opens t q)
    (hsome : q.inname.isSome ∨ q.outname.isSome) :
    ((spawn t h').2.failed → (spawn t h').1 = h) ↔ NothingBefore t q := by
  rw [spawn_clean h' h hprocs]
  constructor
  · intro hcond
    exact ⟨fun hout hsys => absurd hsys (hopens.2 hout),
      fun _ hchild => absurd (hcond.1 hchild) hopened, fun _ => hcond.2⟩
  · refine fun hcond => ⟨fun hchild => ?_, hcond.addargs hopens⟩
    have hnone := hcond.create hopens hchild
    rw [hnone.1, hnone.2] at hsome
    simp at hsome

/-- When a file cannot be opened, only the output's order matters. -/
theorem nothingBefore_of_not_opens
    (hno : ¬ Opens t q)
    (hout : q.outname.isSome → t.openOut = SYSERR.toInt → q.inname.isSome →
      t.openIn = SYSERR.toInt) :
    NothingBefore t q :=
  ⟨hout, fun hopens => absurd hopens hno, fun hopens => absurd hopens hno⟩

theorem redirectInput_clean :
    ((redirectInput t q h).2.failed → (redirectInput t q h).1 = h) ↔
      NothingBefore t q := by
  have hopenedIn := opened_ne h h t.openIn le_rfl
  have hopenedOut := opened_ne h h t.openOut le_rfl
  have hopenedBoth := opened_ne (h.opened t.openIn) h t.openOut (by simp [Held.opened])
  unfold redirectInput redirectOutput
  cases hin : q.inname.isSome <;> cases hout : q.outname.isSome
  all_goals simp only [Bool.false_eq_true, if_true, if_false]
  case false.false =>
    rw [spawn_clean h h rfl]
    have hopens : Opens t q := ⟨by simp [hin], by simp [hout]⟩
    constructor
    · exact fun hcond => ⟨by simp [hout], fun _ _ => ⟨hin, hout⟩, fun _ => hcond.2⟩
    · exact fun hcond => ⟨fun _ => rfl, hcond.addargs hopens⟩
  case false.true =>
    by_cases hsys : t.openOut = SYSERR.toInt
    · rw [if_pos hsys]
      exact iff_of_true (fun _ => rfl)
        (nothingBefore_of_not_opens (fun hopens => hopens.2 hout hsys) (by simp [hin]))
    · rw [if_neg hsys]
      exact spawn_after_redirect hopenedOut rfl ⟨by simp [hin], fun _ => hsys⟩
        (Or.inr hout)
  case true.false =>
    by_cases hsys : t.openIn = SYSERR.toInt
    · rw [if_pos hsys]
      exact iff_of_true (fun _ => rfl)
        (nothingBefore_of_not_opens (fun hopens => hopens.1 hin hsys) (by simp [hout]))
    · rw [if_neg hsys]
      exact spawn_after_redirect hopenedIn rfl ⟨fun _ => hsys, by simp [hout]⟩
        (Or.inl hin)
  case true.true =>
    by_cases hsys : t.openIn = SYSERR.toInt
    · rw [if_pos hsys]
      exact iff_of_true (fun _ => rfl)
        (nothingBefore_of_not_opens (fun hopens => hopens.1 hin hsys) fun _ _ _ => hsys)
    · rw [if_neg hsys]
      by_cases hsys' : t.openOut = SYSERR.toInt
      · rw [if_pos hsys']
        exact iff_of_false (fun hclean => hopenedIn (hclean rfl))
          fun hcond => hsys (hcond.output hout hsys' hin)
      · rw [if_neg hsys']
        exact spawn_after_redirect hopenedBoth rfl ⟨fun _ => hsys, fun _ => hsys'⟩
          (Or.inl hin)

/-- One turn leaves nothing behind exactly when nothing came before the call
that fails. -/
theorem turn_clean_iff : Clean cmdtab t h ↔ ∀ q, Runs cmdtab t q → NothingBefore t q := by
  unfold Clean turn
  dsimp only
  by_cases hret : t.scan.ret = SYSERR.toInt
  · rw [if_pos hret]
    exact iff_of_true (fun _ => rfl) fun q hruns => absurd hret hruns.1
  rw [if_neg hret]
  by_cases hzero : t.scan.ret = 0
  · rw [if_pos hzero]
    exact iff_of_true (fun _ => rfl) fun q hruns => absurd hzero hruns.2.1
  rw [if_neg hzero]
  cases hparse : parse t.scan.scan.tok t.scan.scan.toktyp t.scan.ret.toNat
      (t.scan.tlen.getD 0) with
  | none =>
      refine iff_of_true (fun _ => rfl) fun q hruns => ?_
      have := hruns.2.2.1
      rw [hparse] at this
      contradiction
  | some q =>
      dsimp only
      cases hlookup : lookup cmdtab t.scan.scan.tokbuf with
      | none =>
          refine iff_of_true (fun _ => rfl) fun q' hruns => ?_
          obtain ⟨e, he, -⟩ := hruns.2.2.2
          rw [hlookup] at he
          contradiction
      | some e =>
          dsimp only
          by_cases hbuiltin : e.cbuiltin
          · rw [if_pos hbuiltin]
            have hnot : ∀ q', ¬ Runs cmdtab t q' := by
              rintro q' ⟨-, -, -, e', he', hno⟩
              rw [hlookup] at he'
              cases he'
              rw [hbuiltin] at hno
              contradiction
            refine iff_of_true ?_ fun q' hruns => absurd hruns (hnot q')
            split_ifs
            · exact fun _ => rfl
            · exact fun _ => rfl
            · exact fun _ => rfl
          · rw [if_neg hbuiltin, redirectInput_clean]
            have hruns : Runs cmdtab t q :=
              ⟨hret, hzero, hparse, e, hlookup, by simpa using hbuiltin⟩
            constructor
            · intro hcond q' hruns'
              have heq := hruns'.2.2.1
              rw [hparse] at heq
              cases heq
              exact hcond
            · exact fun hall => hall q hruns

end Exits

/-- Any number of turns that fail leave nothing behind if each meets the
condition, and a single turn does so only then. -/
theorem failing_turns_clean (cmdtab : List Cmdent) :
    (∀ (t : Turn) (h : Held),
      Clean cmdtab t h ↔ ∀ q, Runs cmdtab t q → NothingBefore t q) ∧
    ∀ (ts : List Turn) (h : Held),
      (∀ t ∈ ts, (∀ q, Runs cmdtab t q → NothingBefore t q) ∧
        ∀ h, (turn cmdtab t h).2.failed) →
      turns cmdtab ts h = h := by
  refine ⟨fun t h => turn_clean_iff, fun ts => ?_⟩
  induction ts with
  | nil => exact fun h _ => rfl
  | cons t ts ih =>
      intro h hall
      obtain ⟨hcond, hfailed⟩ := hall t List.mem_cons_self
      have hclean : (turn cmdtab t h).1 = h := turn_clean_iff.mpr hcond (hfailed h)
      show turns cmdtab ts (turn cmdtab t h).1 = h
      rw [hclean]
      exact ih h fun t' ht' => hall t' (List.mem_cons_of_mem t ht')

/-- The line `ls <f >g`, as `lexan` leaves it. -/
def redirectedScan : Result :=
  (lexan (Namespace.ofList [0x6c, 0x73, 0x20, 0x3c, 0x66, 0x20, 0x3e, 0x67, 0x0a]) 9
    (fun _ => 0) (fun _ => 0) (fun _ => 0)).getD
      ⟨0, none, ⟨0, 0, 0, fun _ => 0, fun _ => 0, fun _ => 0⟩⟩

/-- Two turns in which the input file cannot be opened. -/
theorem failing_turns_clean_input :
    turns [⟨[0x6c, 0x73], false⟩]
      [⟨redirectedScan, -1, 8, 5, OK, 0⟩, ⟨redirectedScan, -1, 8, 5, OK, 0⟩]
      ⟨[], []⟩ = ⟨[], []⟩ := by
  refine (failing_turns_clean [⟨[0x6c, 0x73], false⟩]).2 _ _ fun t ht => ?_
  have heq : t = ⟨redirectedScan, -1, 8, 5, OK, 0⟩ := by
    rcases List.mem_cons.mp ht with rfl | ht
    · rfl
    · exact List.mem_singleton.mp ht
  subst heq
  have hrun : ∀ h, turn [⟨[0x6c, 0x73], false⟩] ⟨redirectedScan, -1, 8, 5, OK, 0⟩ h =
      (h, .inputError) := fun _ => rfl
  refine ⟨?_, fun h => by rw [hrun]; rfl⟩
  exact (turn_clean_iff (h := ⟨[], []⟩)).mp fun _ => by rw [hrun]

/-- The input file is opened, the output file is not, and the shell goes on with
the next line while the input file stays open. -/
theorem input_left_open :
    ¬ ∀ (cmdtab : List Cmdent) (t : Turn) (h : Held), Clean cmdtab t h := by
  intro hall
  have hclean := hall [⟨[0x6c, 0x73], false⟩] ⟨redirectedScan, 7, -1, 5, OK, 0⟩ ⟨[], []⟩
  have hrun : turn [⟨[0x6c, 0x73], false⟩] ⟨redirectedScan, 7, -1, 5, OK, 0⟩ ⟨[], []⟩ =
      (⟨[7], []⟩, .outputError) := by
    decide
  unfold Clean at hclean
  rw [hrun] at hclean
  exact absurd (hclean rfl) (by decide)

end Xinu.Shell
