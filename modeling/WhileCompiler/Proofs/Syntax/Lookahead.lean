import WhileCompiler.Proofs.Syntax.AcceptedExpressions

/-!
# Parsers that look one token ahead

A parser that goes through its input from left to right, and tells by the next token alone how to go
on, has seen nothing of what stands behind the token at which it fails.  What it took up to there
can still be completed, if each of its steps leaves the phrase that it belongs to open.  Both facts
are kept by the ways in which parsers are put together.
-/

namespace WhileCompiler

/-- The token that is blamed for a fault of grammar. -/
def SyntaxError.found? : SyntaxError → Option Token
  | .unexpected _ found | .noOperand found | .badInteger found _ => some found
  | .unknownType _ => none

namespace Parsing

variable {α β : Type} {bound : List Token → Nat}

/-- A parser, without the bound on the tokens that it leaves. -/
abbrev Reader (α : Type) := (finish : Token) → List Token → Except SyntaxError (α × List Token)

namespace Reader

/-- Forgets how many tokens a parser leaves at most. -/
def ofParser (parser : (finish : Token) → (tokens : List Token) → Result α (bound tokens)) :
    Reader α :=
  fun finish tokens => (parser finish tokens).map fun parsed => (parsed.value, parsed.rest)

/-- Takes nothing. -/
def done (value : α) : Reader α :=
  fun _ tokens => .ok (value, tokens)

/-- Goes on with a second reader where the first one stopped. -/
def andThen (first : Reader α) (next : α → Reader β) : Reader β :=
  fun finish tokens =>
    match first finish tokens with
    | .error error => .error error
    | .ok (value, rest) => next value finish rest

/-- Takes a token of the given kind, and fails at any other. -/
def single (kind : Token.Kind) : Reader Token :=
  ofParser fun finish => expect finish kind

end Reader

open Reader

theorem length_of_ofParser {parser : (finish : Token) → (tokens : List Token) →
      Result α (bound tokens)} {finish : Token} {tokens rest : List Token} {value : α}
    (hread : ofParser parser finish tokens = .ok (value, rest)) : rest.length < bound tokens := by
  rw [ofParser] at hread
  cases hparsed : parser finish tokens with
  | error error =>
      rw [hparsed] at hread
      cases hread
  | ok parsed =>
      rw [hparsed] at hread
      obtain ⟨-, rfl⟩ := Prod.mk.inj (Except.ok.inj hread)
      exact parsed.shorter

theorem ofParser_of_takes {parser : (finish : Token) → (tokens : List Token) →
      Result α (bound tokens)} {finish : Token} {tokens rest : List Token} {value : α}
    (htakes : Takes (parser finish) tokens value rest) :
    ofParser parser finish tokens = .ok (value, rest) := by
  obtain ⟨shorter, hparsed⟩ := htakes
  rw [ofParser, hparsed]
  rfl

/-! ## What a reader decides -/

/-- Tokens that can be completed to a phrase. -/
def Viable (spells : List Token → α → Prop) (front : List Token) : Prop :=
  ∃ after value, spells (front ++ after) value

theorem viable_of_spells {spells : List Token → α → Prop} {front : List Token} {value : α}
    (hspells : spells front value) : Viable spells front :=
  ⟨[], value, by rwa [List.append_nil]⟩

theorem Viable.of_append {spells : List Token → α → Prop} {front after : List Token}
    (hviable : Viable spells (front ++ after)) : Viable spells front := by
  obtain ⟨more, value, hspells⟩ := hviable
  rw [List.append_assoc] at hspells
  exact ⟨after ++ more, value, hspells⟩

theorem Viable.mono {strong : List Token → α → Prop} {weak : List Token → β → Prop}
    {front : List Token} (hviable : Viable strong front)
    (himplies : ∀ tokens value, strong tokens value → Viable weak tokens) :
    Viable weak front := by
  obtain ⟨after, value, hspells⟩ := hviable
  exact (himplies _ _ hspells).of_append

/-- A fault that was found at a token: what stands before it can be completed, and the fault is the
same whatever stands behind it. -/
inductive FailsAt (reader : Reader α) (spells : List Token → α → Prop) (finish : Token)
    (tokens : List Token) (error : SyntaxError) : Token → Prop
  | token (front : List Token) {rest : List Token} {found : Token} :
      tokens = front ++ found :: rest → Viable spells front →
      (∀ finish rest, reader finish (front ++ found :: rest) = .error error) →
      FailsAt reader spells finish tokens error found
  | finish : Viable spells tokens → FailsAt reader spells finish tokens error finish

/-- A reader that decides by the next token how to go on. -/
structure Decides (reader : Reader α) (spells : List Token → α → Prop) (finish : Token)
    (tokens : List Token) : Prop where
  took : ∀ value rest, reader finish tokens = .ok (value, rest) →
    ∃ front, tokens = front ++ rest ∧ spells front value ∧
      ∀ finish other, other.head? = rest.head? →
        reader finish (front ++ other) = .ok (value, other)
  failed : ∀ error, reader finish tokens = .error error → ∀ found ∈ error.found?,
    FailsAt reader spells finish tokens error found

/-- A parser that decides by the next token is sound: the words spell what it makes of them. -/
theorem spells_of_whole {spells : List Token → α → Prop}
    {parser : (finish : Token) → (tokens : List Token) → Result α tokens.length}
    {tokens : List Token} {value : α}
    (hdecides : Decides (ofParser parser) spells (finish tokens) (words tokens))
    (hwhole : whole parser tokens = .ok value) : spells (words tokens) value := by
  rw [whole] at hwhole
  split at hwhole
  · cases hwhole
  · next parsed hparsed =>
      have hread : ofParser parser (finish tokens) (words tokens) =
          .ok (parsed.value, parsed.rest) := by
        rw [ofParser, hparsed]
        rfl
      obtain ⟨front, hwords, hspells, -⟩ := hdecides.took _ _ hread
      split at hwhole
      · next hrest =>
          obtain rfl := Except.ok.inj hwhole
          rw [hrest, List.append_nil] at hwords
          exact hwords ▸ hspells
      · cases hwhole

section

variable {reader : Reader α} {spells : List Token → α → Prop} {finish token : Token}
  {tokens rest : List Token}

/-! ## Single tokens -/

theorem decides_done {value : α} (hspells : spells [] value) :
    Decides (done value) spells finish tokens where
  took := by
    rintro _ _ ⟨⟩
    exact ⟨[], rfl, hspells, fun _ _ _ => rfl⟩
  failed _ hread := by cases hread

theorem decides_of_error {error : SyntaxError} (hread : reader finish tokens = .error error)
    (hfails : ∀ found ∈ error.found?, FailsAt reader spells finish tokens error found) :
    Decides reader spells finish tokens where
  took value rest hok := by
    rw [hread] at hok
    cases hok
  failed other hother := by
    obtain rfl := Except.error.inj (hread.symm.trans hother)
    exact hfails

/-- Where the input ends too early, the end is blamed. -/
theorem decides_missing {error : SyntaxError} (hread : reader finish [] = .error error)
    (hfound : error.found? = some finish) (hviable : Viable spells []) :
    Decides reader spells finish [] := by
  apply decides_of_error hread
  intro found hmem
  obtain rfl := Option.some.inj (hfound.symm.trans hmem)
  exact .finish hviable

theorem decides_unexpected {error : SyntaxError}
    (hread : ∀ finish rest, reader finish (token :: rest) = .error error)
    (hfound : error.found? = some token) (hviable : Viable spells []) :
    Decides reader spells finish (token :: rest) := by
  apply decides_of_error (hread finish rest)
  intro found hmem
  obtain rfl := Option.some.inj (hfound.symm.trans hmem)
  exact .token [] rfl hviable hread

/-- A fault that no token is blamed for is none of grammar. -/
theorem decides_blameless {error : SyntaxError} (hread : reader finish tokens = .error error)
    (hfound : error.found? = none) : Decides reader spells finish tokens := by
  apply decides_of_error hread
  intro found hmem
  rw [hfound] at hmem
  cases hmem

/-! ## Phrases -/

theorem Decides.mono {weak : List Token → α → Prop} (hreader : Decides reader spells finish tokens)
    (himplies : ∀ front value, spells front value → weak front value) :
    Decides reader weak finish tokens where
  took value rest hread := by
    obtain ⟨front, htokens, hspells, hagain⟩ := hreader.took value rest hread
    exact ⟨front, htokens, himplies front value hspells, hagain⟩
  failed error hread found hmem := by
    have hviable : ∀ front, Viable spells front → Viable weak front := fun front hfront =>
      hfront.mono fun tokens value hspells => viable_of_spells (himplies tokens value hspells)
    cases hreader.failed error hread found hmem with
    | token front htokens hfront hagain => exact .token front htokens (hviable _ hfront) hagain
    | finish hfront => exact .finish (hviable _ hfront)

theorem head?_append_of_head?_eq {front other rest : List Token}
    (hhead : other.head? = rest.head?) : (front ++ other).head? = (front ++ rest).head? := by
  cases front with
  | nil => exact hhead
  | cons first front => rfl

theorem head?_append_cons (front : List Token) (token : Token) (rest other : List Token) :
    (front ++ token :: rest).head? = (front ++ token :: other).head? :=
  head?_append_of_head?_eq rfl

/-- Only the first token tells what a reader does. -/
theorem Decides.congr {other : Reader α} (hother : Decides other spells finish tokens)
    (hsame : ∀ finish input, input.head? = tokens.head? →
      reader finish input = other finish input) :
    Decides reader spells finish tokens where
  took value rest hread := by
    rw [hsame finish tokens rfl] at hread
    obtain ⟨front, rfl, hspells, hagain⟩ := hother.took value rest hread
    refine ⟨front, rfl, hspells, fun finish input hhead => ?_⟩
    rw [hsame finish _ (head?_append_of_head?_eq hhead)]
    exact hagain finish input hhead
  failed error hread found hmem := by
    rw [hsame finish tokens rfl] at hread
    cases hother.failed error hread found hmem with
    | token front htokens hfront hagain =>
        subst htokens
        refine .token front rfl hfront fun finish rest => ?_
        rw [hsame finish _ (head?_append_cons front found rest _)]
        exact hagain finish rest
    | finish hfront => exact .finish hfront

/-- A reader that goes on behind its first token. -/
theorem Decides.cons {inner : Reader α}
    (hinner : Decides inner (fun front => spells (token :: front)) finish rest)
    (hread : ∀ finish rest, reader finish (token :: rest) = inner finish rest) :
    Decides reader spells finish (token :: rest) where
  took value left hok := by
    rw [hread] at hok
    obtain ⟨front, rfl, hspells, hagain⟩ := hinner.took value left hok
    refine ⟨token :: front, rfl, hspells, fun finish other hhead => ?_⟩
    rw [List.cons_append, hread]
    exact hagain finish other hhead
  failed error herror found hmem := by
    rw [hread] at herror
    cases hinner.failed error herror found hmem with
    | token front htokens hfront hagain =>
        subst htokens
        refine .token (token :: front) rfl hfront fun finish rest => ?_
        rw [List.cons_append, hread]
        exact hagain finish rest
    | finish hfront => exact .finish hfront

/-- A first token that may begin the phrase decides nothing by itself. -/
theorem Decides.uncons (hreader : Decides reader spells finish (token :: rest))
    (hempty : ∀ value, ¬ spells [] value)
    (hbegins : ∃ finish rest result, reader finish (token :: rest) = .ok result) :
    Decides (fun finish rest => reader finish (token :: rest))
      (fun front => spells (token :: front)) finish rest where
  took value left hread := by
    obtain ⟨front, htokens, hspells, hagain⟩ := hreader.took value left hread
    cases front with
    | nil => exact absurd hspells (hempty value)
    | cons first front =>
        obtain ⟨rfl, rfl⟩ := List.cons.inj htokens
        exact ⟨front, rfl, hspells, hagain⟩
  failed error herror found hmem := by
    cases hreader.failed error herror found hmem with
    | token front htokens hfront hagain =>
        cases front with
        | nil =>
            -- A fault at the first token would show on every input that begins with it.
            obtain ⟨rfl, -⟩ := List.cons.inj htokens
            obtain ⟨finish, more, result, hok⟩ := hbegins
            rw [← List.nil_append (token :: more), hagain] at hok
            cases hok
        | cons first front =>
            obtain ⟨rfl, rfl⟩ := List.cons.inj htokens
            exact .token front rfl hfront hagain
    | finish hfront => exact .finish hfront

/-- One phrase behind another.  The first one must leave the whole open. -/
theorem Decides.andThen {next : α → Reader β} {whole : List Token → β → Prop}
    (hfirst : Decides reader spells finish tokens)
    (hopen : ∀ front value, spells front value → Viable whole front)
    (hnext : ∀ value rest front, reader finish tokens = .ok (value, rest) → spells front value →
      Decides (next value) (fun after => whole (front ++ after)) finish rest) :
    Decides (reader.andThen next) whole finish tokens where
  took result left hread := by
    rw [Reader.andThen] at hread
    split at hread
    · cases hread
    · next value rest hok =>
        obtain ⟨front, rfl, hspells, hagain⟩ := hfirst.took value rest hok
        obtain ⟨after, rfl, hwhole, hlater⟩ :=
          (hnext value rest front hok hspells).took result left hread
        refine ⟨front ++ after, (List.append_assoc _ _ _).symm, hwhole, ?_⟩
        intro finish other hhead
        rw [List.append_assoc, Reader.andThen,
          hagain finish _ (head?_append_of_head?_eq hhead)]
        exact hlater finish other hhead
  failed error hread found hmem := by
    rw [Reader.andThen] at hread
    split at hread
    · next herror =>
        obtain rfl := Except.error.inj hread
        cases hfirst.failed _ herror found hmem with
        | token front htokens hfront hagain =>
            refine .token front htokens (hfront.mono hopen) fun finish rest => ?_
            rw [Reader.andThen, hagain]
        | finish hfront => exact .finish (hfront.mono hopen)
    · next value rest hok =>
        obtain ⟨front, rfl, hspells, hagain⟩ := hfirst.took value rest hok
        -- The first reader stops at the same place again, since it looked at one token only.
        cases (hnext value rest front hok hspells).failed error hread found hmem with
        | token after htokens hafter hlater =>
            subst htokens
            obtain ⟨more, result, hwhole⟩ := hafter
            refine .token (front ++ after) (List.append_assoc _ _ _).symm
              ⟨more, result, ?_⟩ fun finish rest => ?_
            · rw [List.append_assoc]
              exact hwhole
            · rw [List.append_assoc, Reader.andThen,
                hagain finish _ (head?_append_cons after found rest _)]
              exact hlater finish rest
        | finish hafter =>
            obtain ⟨more, result, hwhole⟩ := hafter
            refine .finish ⟨more, result, ?_⟩
            rw [List.append_assoc]
            exact hwhole

/-- A reader whose result is converted. -/
theorem Decides.map {whole : List Token → β → Prop} {convert : α → β}
    (hreader : Decides reader spells finish tokens)
    (hwhole : ∀ front value, spells front value → whole front (convert value)) :
    Decides (reader.andThen fun value => done (convert value)) whole finish tokens := by
  apply hreader.andThen
  · intro front value hspells
    exact viable_of_spells (hwhole front value hspells)
  · intro value rest front _ hspells
    apply decides_done
    rw [List.append_nil]
    exact hwhole front value hspells

end

/-! ## Tokens of a fixed kind -/

theorem Clear.of_head? {kinds : Token.Kind → Bool} {tokens other : List Token}
    (htokens : Clear kinds tokens) (hhead : other.head? = tokens.head?) : Clear kinds other := by
  intro token hmem
  rw [hhead] at hmem
  exact htokens token hmem

/-- A token of some kinds comes first, or none does. -/
theorem clear_or_cons (kinds : Token.Kind → Bool) (tokens : List Token) :
    Clear kinds tokens ∨ ∃ token rest, tokens = token :: rest ∧ kinds token.kind = true := by
  cases tokens with
  | nil => exact .inl (clear_nil kinds)
  | cons token rest =>
      cases hkind : kinds token.kind with
      | false => exact .inl (clear_cons hkind)
      | true => exact .inr ⟨token, rest, rfl, hkind⟩

section

variable {finish token : Token} {tokens rest : List Token} {kind : Token.Kind}

theorem single_cons (finish : Token) (rest : List Token) (htoken : token.kind = kind) :
    single kind finish (token :: rest) = .ok (token, rest) :=
  ofParser_of_takes (takes_expect finish rest htoken)

theorem single_of_clear (finish : Token) (htokens : Clear (· = kind) tokens) :
    single kind finish tokens = .error (.unexpected kind (current finish tokens)) := by
  rw [single, ofParser, expect, accept?_of_clear htokens]
  rfl

theorem viable_single (kind : Token.Kind) :
    Viable (fun front token => front = [token] ∧ token.kind = kind) [] :=
  ⟨[⟨kind, "", .start⟩], ⟨kind, "", .start⟩, rfl, rfl⟩

theorem decides_single (finish : Token) (tokens : List Token) :
    Decides (single kind) (fun front token => front = [token] ∧ token.kind = kind) finish
      tokens := by
  cases tokens with
  | nil => exact decides_missing (single_of_clear finish (clear_nil _)) rfl (viable_single kind)
  | cons token rest =>
      by_cases hkind : token.kind = kind
      · refine Decides.cons (decides_done ?_) fun finish rest => single_cons finish rest hkind
        exact ⟨rfl, hkind⟩
      · have hread (finish : Token) (rest : List Token) :
            single kind finish (token :: rest) = .error (.unexpected kind token) :=
          single_of_clear finish (clear_cons (decide_eq_false hkind))
        exact decides_unexpected hread rfl (viable_single kind)

/-- Tokens that spell a value up to a last one of a fixed kind. -/
def Closed (kind : Token.Kind) (spells : List Token → α → Prop) (tokens : List Token) (value : α) :
    Prop :=
  ∃ inner closing, tokens = inner ++ [closing] ∧ spells inner value ∧ closing.kind = kind

theorem decides_closing {spells : List Token → α → Prop} {front : List Token} {value : α}
    (hspells : spells front value) (kind : Token.Kind) (finish : Token) (tokens : List Token) :
    Decides ((single kind).andThen fun _ => done value)
      (fun after => Closed kind spells (front ++ after)) finish tokens := by
  apply (decides_single finish tokens).map
  rintro _ closing ⟨rfl, hclosing⟩
  exact ⟨front, closing, rfl, hspells, hclosing⟩

theorem viable_closed {spells : List Token → α → Prop} {front : List Token} {value : α}
    (hspells : spells front value) (kind : Token.Kind) : Viable (Closed kind spells) front :=
  ⟨[⟨kind, "", .start⟩], value, front, _, rfl, hspells, rfl⟩

/-- A phrase and the token that must follow it. -/
theorem Decides.closed {reader : Reader α} {spells : List Token → α → Prop}
    (hreader : Decides reader spells finish tokens) (kind : Token.Kind) :
    Decides (reader.andThen fun value => (single kind).andThen fun _ => done value)
      (Closed kind spells) finish tokens := by
  apply hreader.andThen
  · intro front value hspells
    exact viable_closed hspells kind
  · intro value rest front _ hspells
    exact decides_closing hspells kind finish rest

end

end Parsing

end WhileCompiler
