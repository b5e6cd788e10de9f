import WhileCompiler.Proofs.Typing.Verdicts

/-!
# Scopes behind a check

A check hands on the scopes that it leaves behind, also when it is rejected deep inside a statement.
Whatever the outcome, it has left every frame that it has entered, and has written no frame around
its own.  Its own frame has changed only behind a declaration that was accepted.
-/

namespace WhileCompiler

namespace Bindings

variable {α : Type}

/-- A name that is not bound is bound beside all others. -/
theorem entries_insert_of_get?_eq_none {bindings : Bindings α} {name : String}
    (hname : bindings.get? name = none) (value : α) :
    (bindings.insert name value).entries = (name, value) :: bindings.entries := by
  have hkeys : ∀ entry ∈ bindings.entries, entry.1 ≠ name := by
    intro entry hmem heq
    have hlookup := List.lookup_eq_none_iff.1 hname entry hmem
    simp [heq] at hlookup
  rw [insert, List.filter_eq_self.2 fun entry hmem => decide_eq_true (hkeys entry hmem)]

end Bindings

namespace Scopes

variable {α : Type}

/-- The innermost frame. -/
def top (scopes : Scopes α) : Bindings α :=
  scopes.entered.headD scopes.root

theorem frames_eq_cons (scopes : Scopes α) : scopes.frames = scopes.top :: scopes.frames.tail := by
  obtain ⟨entered, root⟩ := scopes
  cases entered with
  | nil => rfl
  | cons frame others => rfl

theorem top_declare (scopes : Scopes α) (name : String) (value : α) :
    (scopes.declare name value).top = scopes.top.insert name value := by
  obtain ⟨entered, root⟩ := scopes
  cases entered with
  | nil => rfl
  | cons frame others => rfl

theorem depth_eq_of_frames_tail {scopes others : Scopes α}
    (htail : scopes.frames.tail = others.frames.tail) : scopes.depth = others.depth := by
  rw [depth, depth, frames_eq_cons scopes, frames_eq_cons others, htail]
  rfl

theorem lookup?_eq_none_iff {scopes : Scopes α} {name : String} :
    scopes.lookup? name = none ↔ ∀ frame ∈ scopes.frames, frame.get? name = none :=
  List.findSome?_eq_none_iff

end Scopes

namespace Stmt

/-- What a check leaves behind.  Only a declaration that is accepted changes the scopes. -/
inductive LeavesBehind (scopes : Scopes Ty) : Stmt → Checked → Prop
  | rejected {statement : Stmt} {error : TypeError} :
      LeavesBehind scopes statement (.error error, scopes)
  | declared {name : String} {type : Ty} {initial : Expr} :
      scopes.lookup? name = none →
      LeavesBehind scopes (.declaration name type initial) (.ok (), scopes.declare name type)
  | accepted {statement : Stmt} :
      (∀ name type initial, statement ≠ .declaration name type initial) →
      LeavesBehind scopes statement (.ok (), scopes)

variable {scopes : Scopes Ty} {statement : Stmt}

theorem leavesBehind_same (outcome : Except TypeError Unit)
    (hother : ∀ name type initial, statement ≠ .declaration name type initial) :
    LeavesBehind scopes statement (outcome, scopes) := by
  cases outcome with
  | error error => exact .rejected
  | ok value => exact .accepted hother

/-- Frames that were entered for the statements inside are gone behind the check. -/
theorem leavesBehind_check (statement : Stmt) (scopes : Scopes Ty) :
    LeavesBehind scopes statement (statement.check scopes) := by
  have hverdict := verdict_check statement scopes
  generalize statement.check scopes = checked at hverdict
  cases hverdict with
  | declared hname hinitial => exact .declared hname
  | empty | assigned _ _ | expression _ => exact .accepted nofun
  | block _ | conditional _ _ _ | loop _ _ => exact leavesBehind_same _ nofun
  | untyped _ _ | redeclared _ | badInitialValue _ _ | undeclared _ | badAssignment _ _ _
  | badBranch _ _ | badIfCondition _ _ | badLoopCondition _ _ => exact .rejected

/-- Whatever the outcome of a check, the scopes behind it are as deep as before, and all frames
below the innermost one are as they were.  The innermost one is as it was too, unless the statement
is a declaration that was accepted: then it has one more binding, of the declared name to its type,
and no frame has bound this name before. -/
theorem check_restores_scopes (statement : Stmt) (scopes : Scopes Ty) :
    (statement.check scopes).2.depth = scopes.depth ∧
      (statement.check scopes).2.frames.tail = scopes.frames.tail ∧
      ((∀ name type initial, statement = .declaration name type initial →
          (statement.check scopes).1 ≠ .ok ()) →
        (statement.check scopes).2.top = scopes.top) ∧
      ∀ name type initial, statement = .declaration name type initial →
        (statement.check scopes).1 = .ok () →
          (statement.check scopes).2.top.entries = (name, type) :: scopes.top.entries ∧
            ∀ frame ∈ scopes.frames, frame.get? name = none := by
  have hleaves := leavesBehind_check statement scopes
  have htail := (verdict_check statement scopes).frames_tail
  refine ⟨Scopes.depth_eq_of_frames_tail htail, htail, ?_⟩
  generalize statement.check scopes = checked at hleaves
  cases hleaves with
  | rejected => exact ⟨fun _ => rfl, fun _ _ _ _ hok => by cases hok⟩
  | @declared name type initial hname =>
      have hframes := Scopes.lookup?_eq_none_iff.1 hname
      refine ⟨fun hrejected => absurd rfl (hrejected name type initial rfl), ?_⟩
      rintro _ _ _ ⟨⟩ -
      rw [Scopes.top_declare, Bindings.entries_insert_of_get?_eq_none]
      · exact ⟨rfl, hframes⟩
      · exact hframes scopes.top (scopes.frames_eq_cons ▸ List.mem_cons_self)
  | accepted hother =>
      exact ⟨fun _ => rfl, fun name type initial heq _ => absurd heq (hother name type initial)⟩

/-- A block whose third statement is rejected two frames further in. -/
def deepFault : Stmt :=
  .block [.declaration "y" .int (.int 1), .declaration "z" .int (.int 2),
    .loop (.bool true) (.block [.declaration "b" .bool (.bool false), .assignment "b" (.var "y")])]

/-- A declaration beside one that was made before. -/
def comparison : Stmt :=
  .declaration "y" .bool (.binary ">" (.var "x") (.int 0))

/-- The scopes of a block in which one variable has been declared. -/
def oneDeclared : Scopes Ty :=
  (Scopes.ofRoot Builtins.standard.signatures).push.declare "x" .int

theorem check_restores_scopes_deepFault :
    (deepFault.check oneDeclared).1 = .error (.badAssignment "b" .bool .int) ∧
      (deepFault.check oneDeclared).2.top = oneDeclared.top ∧
      (comparison.check oneDeclared).1 = .ok () ∧
      (comparison.check oneDeclared).2.top.entries = [("y", .bool), ("x", .int)] ∧
      ∀ frame ∈ oneDeclared.frames, frame.get? "y" = none := by
  obtain ⟨-, -, hkept, -⟩ := check_restores_scopes deepFault oneDeclared
  obtain ⟨-, -, -, hdeclared⟩ := check_restores_scopes comparison oneDeclared
  obtain ⟨hentries, hunbound⟩ := hdeclared "y" .bool _ rfl rfl
  exact ⟨rfl, hkept (fun _ _ _ heq => by cases heq), rfl, hentries, hunbound⟩

end Stmt

end WhileCompiler
