import ManDb.Text

namespace ManDb

/-- A value of `errno` after a failure. -/
structure ErrorNumber where
  value : Nat
  positive : 0 < value

def enoent : ErrorNumber := ⟨2, by decide⟩

/-- What goes wrong in a call of `fread` or `fwrite`, after so many bytes. -/
structure IoFault where
  count : Nat
  errno : ErrorNumber

/-- What goes wrong in one pass of the copy loop. -/
structure PassFaults where
  read : Option IoFault
  write : Option IoFault

/-- `feof` and `ferror` of a stream that has been read from. -/
inductive StreamState
  | ready | eof | error (errno : ErrorNumber)

/-- `buf_size`. -/
def copyBufSize : Nat := 32 * 1024

/-- `fread` of `copyBufSize` bytes from what remains of a file. It is short at the end of
the file, and on an error. -/
def fread (remaining : Bytes) (fault : Option IoFault) : Bytes × StreamState :=
  match fault with
  | none => (remaining.take copyBufSize, if remaining.length < copyBufSize then .eof else .ready)
  | some fault => (remaining.take (min fault.count (copyBufSize - 1)), .error fault.errno)

/-- `fwrite`: what is accepted, and the error if that is short. -/
def fwrite (buf : Bytes) (fault : Option IoFault) : Bytes × Option ErrorNumber :=
  match fault with
  | none => (buf, none)
  | some fault => if buf.length ≤ fault.count then (buf, none) else (buf.take fault.count, some fault.errno)

/-- The variable `ret`, what was accepted for the destination, and whether a call was
short because of an error. -/
structure CopyState where
  ret : Int
  written : Bytes
  short : Bool
  deriving DecidableEq

/-- One pass of the copy loop of `xcopy`, and whether there is another one. The condition
of the loop looks at the input stream only. -/
def xcopyPass (faults : PassFaults) (remaining : Bytes) (s : CopyState) : CopyState × Bool :=
  match fread remaining faults.read with
  | (buf, state) =>
    if buf = [] then
      match state with
      | .error errno => (⟨-errno.value, s.written, true⟩, false)
      | _ => (s, false)
    else
      match fwrite buf faults.write with
      | ([], some errno) => (⟨-errno.value, s.written, true⟩, false)
      | (accepted, error) =>
        let s := { s with written := s.written ++ accepted, short := s.short || error.isSome }
        match state with
        | .ready => (s, true)
        | .eof => (s, false)
        | .error _ => ({ s with short := true }, false)

theorem copyBufSize_pos : 0 < copyBufSize := by decide

/-- A read that is ready for more was not short. -/
theorem fread_ready {remaining buf : Bytes} {fault : Option IoFault} (read : fread remaining fault = (buf, .ready)) :
    fault = none ∧ buf = remaining.take copyBufSize ∧ copyBufSize ≤ remaining.length := by
  cases fault with
  | some fault => cases read
  | none =>
    obtain ⟨whole, state⟩ := Prod.mk.inj read
    refine ⟨rfl, whole.symm, ?_⟩
    by_contra short
    rw [if_pos (Nat.lt_of_not_le short)] at state
    cases state

theorem xcopyPass_more {faults : PassFaults} {remaining : Bytes} {s : CopyState}
    (more : (xcopyPass faults remaining s).2 = true) : copyBufSize ≤ remaining.length := by
  cases read : fread remaining faults.read with
  | mk buf state =>
    simp only [xcopyPass, read] at more
    split at more
    · split at more <;> cases more
    · split at more
      · cases more
      · split at more
        · exact (fread_ready read).2.2
        · cases more
        · cases more

/-- The copy loop of `xcopy`, from a pass on. -/
def xcopyLoop (faults : Nat → PassFaults) (pass : Nat) (remaining : Bytes) (s : CopyState) : CopyState :=
  match _pass : xcopyPass (faults pass) remaining s with
  | (s, false) => s
  | (s, true) => xcopyLoop faults (pass + 1) (remaining.drop copyBufSize) s
termination_by remaining.length
decreasing_by
  have size := xcopyPass_more (congrArg Prod.snd _pass)
  have positive := copyBufSize_pos
  rw [List.length_drop]
  omega

/-- What happens to the two files apart from the loop: `fopen` of the destination fails,
`fclose` of it loses what follows so many bytes, and `chmod` of it. -/
structure CopyHost where
  opened : Option ErrorNumber
  faults : Nat → PassFaults
  closed : Option Nat
  chmod : Bool

/-- What `xcopy` returns, the destination afterwards, and whether a call was short because
of an error. -/
structure CopyResult where
  ret : Int
  destination : Option Bytes
  short : Bool

/-- `xcopy`, of a file with this content to a place where this is. -/
def xcopy (host : CopyHost) (source : Except ErrorNumber Bytes) (before : Option Bytes) : CopyResult :=
  match source with
  | .error errno => if errno.value = enoent.value then ⟨0, before, false⟩ else ⟨-errno.value, before, false⟩
  | .ok content =>
    match host.opened with
    | some errno => ⟨-errno.value, before, false⟩
    | none =>
      let s := xcopyLoop host.faults 0 content ⟨0, [], false⟩
      let destination := host.closed.elim s.written s.written.take
      if s.ret < 0 then ⟨s.ret, none, s.short⟩
      -- check_chmod removes the file if it fails
      else ⟨s.ret, if host.chmod then some destination else none, s.short⟩

/-- The start of `mandb`: whether the database is created anew, and what is at the place of
the temporary copy. -/
def startMandb (shouldCreate : Bool) (copy : CopyResult) (before : Option Bytes) : Bool × Option Bytes :=
  let tmp := if shouldCreate then before else copy.destination
  let shouldCreate := shouldCreate || copy.ret < 0
  (shouldCreate, if shouldCreate then none else tmp)

/-- A copy is exact, or `xcopy` fails and leaves nothing, and `mandb` does not go on. -/
structure FaithfulCopy (content : Bytes) (result : CopyResult) : Prop where
  exact_ : result.ret = 0 → result.destination = some content
  fails : result.short = true → result.ret < 0 ∧ result.destination = none
  continues : ∀ before tmp, startMandb false result before = (false, tmp) → tmp = some content

/-- Nothing is read because of an error, or nothing of what is read is written. -/
def NoticedAt (faults : PassFaults) (remaining : Bytes) : Prop :=
  match fread remaining faults.read with
  | (buf, state) => if buf = [] then ∃ errno, state = .error errno else (fwrite buf faults.write).1 = []

/-- Nothing goes wrong. -/
def WholeAt (faults : PassFaults) (remaining : Bytes) : Prop :=
  faults.read = none ∧ (fwrite (remaining.take copyBufSize) faults.write).2 = none

/-- In some pass of the loop an error is noticed. -/
inductive Noticed (faults : Nat → PassFaults) : Nat → Bytes → Prop
  | now {pass remaining} : NoticedAt (faults pass) remaining → Noticed faults pass remaining
  | later {pass remaining} : (faults pass).read = none → copyBufSize ≤ remaining.length →
      Noticed faults (pass + 1) (remaining.drop copyBufSize) → Noticed faults pass remaining

/-- In no pass of the loop does anything go wrong. -/
inductive Undisturbed (faults : Nat → PassFaults) : Nat → Bytes → Prop
  | last {pass remaining} : WholeAt (faults pass) remaining → remaining.length < copyBufSize →
      Undisturbed faults pass remaining
  | later {pass remaining} : WholeAt (faults pass) remaining → copyBufSize ≤ remaining.length →
      Undisturbed faults (pass + 1) (remaining.drop copyBufSize) → Undisturbed faults pass remaining

variable {f : PassFaults} {faults : Nat → PassFaults} {pass : Nat} {remaining buf : Bytes} {s s' : CopyState}

theorem fwrite_whole {fault : Option IoFault} (whole : (fwrite buf fault).2 = none) : fwrite buf fault = (buf, none) := by
  unfold fwrite at whole ⊢
  split at whole
  · rfl
  · split at whole
    · rename_i enough
      exact if_pos enough
    · cases whole

theorem fwrite_nothing {fault : Option IoFault} (nonempty : buf ≠ []) (nothing : (fwrite buf fault).1 = []) :
    ∃ errno, fwrite buf fault = ([], some errno) := by
  cases error : (fwrite buf fault).2 with
  | some errno => exact ⟨errno, Prod.ext nothing error⟩
  | none =>
    rw [fwrite_whole error] at nothing
    exact absurd nothing nonempty

theorem fwrite_nil (fault : Option IoFault) : fwrite [] fault = ([], none) := by
  cases fault with
  | none => rfl
  | some fault => rfl

/-- A read without a fault gives all that it is asked for, and no error. -/
theorem fread_cases (remaining : Bytes) (fault : Option IoFault) :
    (fault = none ∧ (fread remaining fault).1 = remaining.take copyBufSize ∧
      ∀ errno, (fread remaining fault).2 ≠ .error errno) ∨ ∃ errno, (fread remaining fault).2 = .error errno := by
  cases fault with
  | some fault => exact Or.inr ⟨fault.errno, rfl⟩
  | none =>
    refine Or.inl ⟨rfl, rfl, fun errno failed => ?_⟩
    unfold fread at failed
    split at failed
    · split at failed <;> cases failed
    · contradiction

theorem xcopyPass_noticed (noticed : NoticedAt f remaining) : ∃ errno : ErrorNumber,
    xcopyPass f remaining s = (⟨-errno.value, s.written, true⟩, false) := by
  cases read : fread remaining f.read with
  | mk buf state =>
    simp only [NoticedAt, read] at noticed
    simp only [xcopyPass, read]
    by_cases empty : buf = []
    · rw [if_pos empty] at noticed ⊢
      obtain ⟨errno, rfl⟩ := noticed
      exact ⟨errno, rfl⟩
    · rw [if_neg empty] at noticed ⊢
      obtain ⟨errno, nothing⟩ := fwrite_nothing empty noticed
      exact ⟨errno, by rw [nothing]⟩

theorem xcopyPass_whole (whole : WholeAt f remaining) : xcopyPass f remaining s =
    ({ s with written := s.written ++ remaining.take copyBufSize }, decide (copyBufSize ≤ remaining.length)) := by
  obtain ⟨unread, accepted⟩ := whole
  have written := fwrite_whole accepted
  have size := copyBufSize_pos
  simp only [xcopyPass, unread, fread]
  by_cases short : remaining.length < copyBufSize
  · have last : ¬copyBufSize ≤ remaining.length := Nat.not_le_of_lt short
    rw [if_pos short, decide_eq_false last]
    split
    · rename_i empty
      rw [empty, List.append_nil]
    · rename_i nonempty
      simp [written]
  · have more : copyBufSize ≤ remaining.length := Nat.le_of_not_lt short
    have nonempty : remaining.take copyBufSize ≠ [] := by
      rw [← List.length_pos_iff, List.length_take]
      omega
    rw [if_neg short, decide_eq_true more, if_neg nonempty, written]
    simp

/-- What a pass does in which no error is noticed: the code is left as it is, and something
that goes wrong is not made up for. -/
theorem xcopyPass_passed (unnoticed : ¬NoticedAt f remaining) :
    (xcopyPass f remaining s).1.ret = s.ret ∧
    ((xcopyPass f remaining s).2 = true → f.read = none) ∧
    (s.short = true ∨ ¬WholeAt f remaining → (xcopyPass f remaining s).1.short = true) := by
  have reads := fread_cases remaining f.read
  cases read : fread remaining f.read with
  | mk buf state =>
    rw [read] at reads
    simp only [NoticedAt, read] at unnoticed
    simp only [xcopyPass, read]
    by_cases empty : buf = []
    · rw [if_pos empty] at unnoticed
      obtain ⟨unread, whole, _⟩ := reads.resolve_right unnoticed
      have fine : WholeAt f remaining := by
        refine ⟨unread, ?_⟩
        rw [← whole, empty, fwrite_nil]
      cases state with
      | error errno => exact absurd ⟨errno, rfl⟩ unnoticed
      | ready => simp [empty, fine]
      | eof => simp [empty, fine]
    · rw [if_neg empty] at unnoticed ⊢
      cases write : fwrite buf f.write with
      | mk accepted error =>
        rw [write] at unnoticed
        obtain ⟨b, more, rfl⟩ := List.exists_cons_of_ne_nil unnoticed
        rcases reads with ⟨unread, whole, noError⟩ | ⟨errno, failed⟩
        · have disturbed : ¬WholeAt f remaining → error.isSome = true := by
            intro disturbed
            rw [Option.isSome_iff_ne_none]
            rintro rfl
            refine disturbed ⟨unread, ?_⟩
            rw [← whole, write]
          cases state with
          | error errno => exact absurd rfl (noError errno)
          | ready => exact ⟨rfl, fun _ => unread, by simpa using Or.imp_right disturbed⟩
          | eof => exact ⟨rfl, nofun, by simpa using Or.imp_right disturbed⟩
        · obtain rfl : state = .error errno := failed
          exact ⟨rfl, nofun, fun _ => rfl⟩

/-- Without an error the loop goes on while the buffer is full. -/
theorem xcopyPass_goesOn (unnoticed : ¬NoticedAt f remaining) (unread : f.read = none)
    (more : copyBufSize ≤ remaining.length) : (xcopyPass f remaining s).2 = true := by
  have nonempty : remaining.take copyBufSize ≠ [] := by
    have size := copyBufSize_pos
    rw [← List.length_pos_iff, List.length_take]
    omega
  simp only [NoticedAt, unread, fread, if_neg nonempty] at unnoticed
  obtain ⟨b, accepted, first⟩ := List.exists_cons_of_ne_nil unnoticed
  cases write : fwrite (remaining.take copyBufSize) f.write with
  | mk accepted error =>
    rw [write] at first
    simp only at first
    subst first
    simp only [xcopyPass, unread, fread, if_neg nonempty, if_neg (Nat.not_lt.mpr more), write]

theorem xcopyLoop_turn (more : xcopyPass (faults pass) remaining s = (s', true)) :
    xcopyLoop faults pass remaining s = xcopyLoop faults (pass + 1) (remaining.drop copyBufSize) s' := by
  rw [xcopyLoop.eq_def]
  split
  · rename_i last
    rw [more] at last
    cases last
  · rename_i again
    rw [more] at again
    cases again
    rfl

theorem xcopyLoop_last (last : xcopyPass (faults pass) remaining s = (s', false)) :
    xcopyLoop faults pass remaining s = s' := by
  rw [xcopyLoop.eq_def]
  split
  · rename_i again
    rw [last] at again
    cases again
    rfl
  · rename_i more
    rw [last] at more
    cases more

/-- An error that is noticed ends the loop with its code. -/
theorem xcopyLoop_noticed (noticed : Noticed faults pass remaining) (s : CopyState) :
    (xcopyLoop faults pass remaining s).ret < 0 := by
  have here : ∀ {pass remaining} (s : CopyState), NoticedAt (faults pass) remaining →
      (xcopyLoop faults pass remaining s).ret < 0 := by
    intro pass remaining s now
    obtain ⟨errno, last⟩ := xcopyPass_noticed now (s := s)
    have positive := errno.positive
    rw [xcopyLoop_last last]
    simp only
    omega
  induction noticed generalizing s with
  | now now => exact here s now
  | @later pass remaining unread more _ ih =>
    by_cases now : NoticedAt (faults pass) remaining
    · exact here s now
    · have again := xcopyPass_goesOn now unread more (s := s)
      rw [xcopyLoop_turn (Prod.ext rfl again)]
      exact ih _

/-- A loop without trouble writes all that remains. -/
theorem xcopyLoop_undisturbed (undisturbed : Undisturbed faults pass remaining) (s : CopyState) :
    xcopyLoop faults pass remaining s = { s with written := s.written ++ remaining } := by
  induction undisturbed generalizing s with
  | last whole short =>
    have pass := xcopyPass_whole whole (s := s)
    rw [decide_eq_false (Nat.not_le_of_lt short), List.take_of_length_le (Nat.le_of_lt short)] at pass
    exact xcopyLoop_last pass
  | later whole more _ ih =>
    have pass := xcopyPass_whole whole (s := s)
    rw [decide_eq_true more] at pass
    rw [xcopyLoop_turn pass, ih, List.append_assoc, List.take_append_drop]

/-- If no error is noticed the code stays what it is, and trouble is only to be seen from
the calls. -/
theorem xcopyLoop_unnoticed (unnoticed : ¬Noticed faults pass remaining) (s : CopyState) :
    (xcopyLoop faults pass remaining s).ret = s.ret ∧
    (s.short = true ∨ ¬Undisturbed faults pass remaining → (xcopyLoop faults pass remaining s).short = true) := by
  generalize size : remaining.length = k
  induction k using Nat.strong_induction_on generalizing pass remaining s with
  | _ k ih =>
    have now : ¬NoticedAt (faults pass) remaining := fun now => unnoticed (.now now)
    obtain ⟨ret, unread, short⟩ := xcopyPass_passed now (s := s)
    have fits := @xcopyPass_more (faults pass) remaining s
    cases turn : xcopyPass (faults pass) remaining s with
    | mk after more =>
      rw [turn] at ret unread short fits
      cases more with
      | false =>
        rw [xcopyLoop_last turn]
        refine ⟨ret, fun trouble => short (trouble.imp_right fun disturbed whole => disturbed (.last whole ?_))⟩
        have last := xcopyPass_whole whole (s := s)
        rw [turn, Prod.mk.injEq] at last
        exact Nat.lt_of_not_le (of_decide_eq_false last.2.symm)
      | true =>
        have later : ¬Noticed faults (pass + 1) (remaining.drop copyBufSize) := fun later =>
          unnoticed (.later (unread rfl) (fits rfl) later)
        have shorter : (remaining.drop copyBufSize).length < k := by
          have positive := copyBufSize_pos
          have full := fits rfl
          rw [List.length_drop]
          omega
        obtain ⟨ret', short'⟩ := ih _ shorter later after rfl
        rw [xcopyLoop_turn turn]
        refine ⟨ret'.trans ret, fun trouble => short' ?_⟩
        by_cases whole : WholeAt (faults pass) remaining
        · rcases trouble with before | disturbed
          · exact Or.inl (short (Or.inl before))
          · exact Or.inr fun rest => disturbed (.later whole (fits rfl) rest)
        · exact Or.inl (short (Or.inr whole))

/-- The end of the copy: nothing is lost when the file is closed, and its mode is set. -/
def EndsWhole (host : CopyHost) (content : Bytes) : Prop :=
  host.chmod = true ∧ ∀ count, host.closed = some count → content.length ≤ count

theorem endsWhole_iff (host : CopyHost) (content : Bytes) : EndsWhole host content ↔
    (if host.chmod then some (host.closed.elim content content.take) else none) = some content := by
  unfold EndsWhole
  cases host.chmod with
  | false => simp
  | true =>
    cases host.closed with
    | none => simp
    | some count =>
      simp only [Option.some.injEq, forall_eq', true_and, if_true, Option.elim_some]
      refine ⟨List.take_of_length_le, fun whole => ?_⟩
      rw [← whole, List.length_take]
      exact Nat.min_le_left _ _

theorem FaithfulCopy.of_failed {content : Bytes} {result : CopyResult} (failed : result.ret < 0)
    (removed : result.short = true → result.destination = none) : FaithfulCopy content result where
  exact_ zero := absurd zero (by omega)
  fails short := ⟨failed, removed short⟩
  continues before tmp start := by
    rw [startMandb, Bool.false_or, decide_eq_true failed] at start
    cases start

/-- A result that is no failure has to be exact. -/
theorem faithfulCopy_zero_iff {content : Bytes} {result : CopyResult} (zero : result.ret = 0) :
    FaithfulCopy content result ↔ result.short = false ∧ result.destination = some content := by
  constructor
  · intro faithful
    refine ⟨?_, faithful.exact_ zero⟩
    rw [← Bool.not_eq_true]
    intro short
    have failed := (faithful.fails short).1
    omega
  · rintro ⟨noTrouble, whole⟩
    refine ⟨fun _ => whole, fun short => ?_, fun before tmp start => ?_⟩
    · rw [noTrouble] at short
      cases short
    · have goesOn : ¬result.ret < 0 := by omega
      rw [startMandb, Bool.false_or, decide_eq_false goesOn] at start
      exact (Prod.mk.inj start).2.symm.trans whole

/-- `xcopy` is faithful exactly if the destination cannot be opened, or an error is noticed
in the loop, or nothing goes wrong at all. -/
theorem xcopy_faithful_iff (host : CopyHost) (content : Bytes) (before : Option Bytes) :
    FaithfulCopy content (xcopy host (.ok content) before) ↔
      host.opened ≠ none ∨ Noticed host.faults 0 content ∨
        (Undisturbed host.faults 0 content ∧ EndsWhole host content) := by
  cases opened : host.opened with
  | some errno =>
    have positive := errno.positive
    refine iff_of_true (FaithfulCopy.of_failed ?_ ?_) (Or.inl nofun)
    · simp only [xcopy, opened]
      omega
    · simp [xcopy, opened]
  | none =>
    by_cases noticed : Noticed host.faults 0 content
    · have failed := xcopyLoop_noticed noticed ⟨0, [], false⟩
      refine iff_of_true (FaithfulCopy.of_failed ?_ fun _ => ?_) (Or.inr (Or.inl noticed))
      · simpa only [xcopy, opened, if_pos failed] using failed
      · simp only [xcopy, opened, if_pos failed]
    · obtain ⟨ret, short⟩ := xcopyLoop_unnoticed noticed ⟨0, [], false⟩
      have goesOn : ¬(xcopyLoop host.faults 0 content ⟨0, [], false⟩).ret < 0 := by
        rw [ret]
        exact Int.lt_irrefl 0
      have zero : (xcopy host (.ok content) before).ret = 0 := by
        simpa only [xcopy, opened, if_neg goesOn] using ret
      rw [faithfulCopy_zero_iff zero]
      simp only [xcopy, opened, if_neg goesOn, ne_eq, not_true_eq_false, noticed, false_or]
      by_cases undisturbed : Undisturbed host.faults 0 content
      · simp only [xcopyLoop_undisturbed undisturbed, List.nil_append, true_and, undisturbed, endsWhole_iff]
      · simp only [short (Or.inr undisturbed), Bool.true_eq_false, false_and, undisturbed]

/-- An error after the first byte that is read. -/
def readError : CopyHost where
  opened := none
  faults _ := ⟨some ⟨1, ⟨5, by decide⟩⟩, none⟩
  closed := none
  chmod := true

theorem xcopy_truncates : ¬FaithfulCopy (ascii "ab") (xcopy readError (.ok (ascii "ab")) none) := by
  have pass : xcopyPass (readError.faults 0) (ascii "ab") ⟨0, [], false⟩ = (⟨0, ascii "a", true⟩, false) := by
    decide +kernel
  have copied : xcopy readError (.ok (ascii "ab")) none = ⟨0, some (ascii "a"), true⟩ := by
    have loop := xcopyLoop_last pass
    unfold xcopy
    simp only [loop]
    rfl
  intro faithful
  rw [copied] at faithful
  exact absurd (faithful.exact_ rfl) (by decide +kernel)

end ManDb
