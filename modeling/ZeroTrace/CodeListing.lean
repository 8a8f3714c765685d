import ZeroTrace.CodeBuffer

/-! Straight code: an instruction goes on with the next one, skips some bytes forward or
leaves. Nothing here knows an instruction. -/
namespace ZeroTrace.CodeListing

inductive Outcome (σ ε : Type) where
  | next (s : σ)
  | leave (e : ε)

def Outcome.goesOn {σ ε : Type} (bytes : Nat) : Outcome σ ε → Outcome (Nat × σ) ε
  | .next s => .next (bytes,s)
  | .leave e => .leave e

section Execution
variable {I σ ε : Type} (size : I → Nat) (step : UInt64 → I → σ → Outcome (Nat × σ) ε)
    (fall : UInt64 → σ → Option ε)

/- From an address, with so many bytes to skip first. A skip into the middle of an
instruction, or behind the code, goes nowhere. -/
def execute : UInt64 → Nat → List I → σ → Option ε
  | a,0,[],s => fall a s
  | _,_+1,[],_ => none
  | a,0,i::l,s => match step a i s with
    | .next (n,s) => execute (a + UInt64.ofNat (size i)) n l s
    | .leave e => some e
  | a,n+1,i::l,s => if size i ≤ n+1 then execute (a + UInt64.ofNat (size i)) (n+1 - size i) l s
      else none

def codeSize : List I → Nat
  | [] => 0
  | i::l => size i + codeSize l

attribute [local simp] execute codeSize

variable {size step fall} {a : UInt64} {i : I} {l block : List I} {s s' : σ} {e : ε} {n : Nat}

theorem codeSizeAppend (l l' : List I) :
    codeSize size (l ++ l') = codeSize size l + codeSize size l' := by
  induction l with
  | nil => simp [codeSize]
  | cons i l ih => simp [codeSize,ih,Nat.add_assoc]

theorem executeNext (here : step a i s = .next (n,s')) :
    execute size step fall a 0 (i::l) s =
      execute size step fall (a + UInt64.ofNat (size i)) n l s' := by
  simp only [execute,here]

theorem executeLeave (here : step a i s = .leave e) : execute size step fall a 0 (i::l) s =
    some e := by
  simp only [execute,here]

end Execution

/-! Code whose calls come back. -/
section Walk
variable {I J σ ε : Type} (size : I → Nat) (step : UInt64 → I → σ → Outcome (Nat × σ) ε)
    (back : ε → Option σ)

/- Where control goes from here, and what follows once it is back. -/
def handedOn (e : ε) (after : σ → Option (List ε)) : Option (List ε) := match back e with
  | none => some [e]
  | some s => (after s).map (e::·)

/- All the places to which control is handed on, in their order. What comes back comes back
right behind the instruction that has left. At the end it goes on with `fall`, with what is
left to skip. -/
def walk (fall : UInt64 → Nat → σ → Option (List ε)) : UInt64 → Nat → List I → σ → Option (List ε)
  | a,n,[],s => fall a n s
  | a,0,i::l,s => match step a i s with
    | .next (n,s) => walk fall (a + UInt64.ofNat (size i)) n l s
    | .leave e => handedOn back e fun s => walk fall (a + UInt64.ofNat (size i)) 0 l s
  | a,n+1,i::l,s => if size i ≤ n+1 then walk fall (a + UInt64.ofNat (size i)) (n+1 - size i) l s
      else none

attribute [local simp] walk

def nowhere (_ : UInt64) (_ : Nat) (_ : σ) : Option (List ε) := none

variable {size step back} {fall : UInt64 → Nat → σ → Option (List ε)} {a : UInt64} {i : I}
    {l l' block : List I} {s s' : σ} {e : ε} {n : Nat}

theorem handedBack {after : σ → Option (List ε)} (here : back e = some s) :
    handedOn back e after = (after s).map (e::·) := by
  simp only [handedOn,here]

theorem walkNil : walk size step back fall a n [] s = fall a n s := by simp only [walk]

theorem walkNext (here : step a i s = .next (n,s')) :
    walk size step back fall a 0 (i::l) s =
      walk size step back fall (a + UInt64.ofNat (size i)) n l s' := by
  simp only [walk,here]

theorem walkLeave (here : step a i s = .leave e) :
    walk size step back fall a 0 (i::l) s = handedOn back e fun s =>
      walk size step back fall (a + UInt64.ofNat (size i)) 0 l s := by
  simp only [walk,here]

theorem walkAppend :
    walk size step back fall a n (l ++ l') s =
      walk size step back (fun a n s => walk size step back fall a n l' s) a n l s := by
  induction l generalizing a n s with
  | nil => rw [List.nil_append,walkNil]
  | cons i l ih =>
    rw [List.cons_append]
    cases n with
    | zero =>
      simp only [walk]
      cases step a i s with
      | next r => exact ih
      | leave e => simp only [ih]
    | succ n => simp only [walk,ih]

theorem walkMap {size' : J → Nat} {step' : UInt64 → J → σ → Outcome (Nat × σ) ε} {f : I → J}
    (sizes : ∀ i, size' (f i) = size i)
    (steps : ∀ a i s, step' a (f i) s = step a i s) :
    walk size' step' back fall a n (l.map f) s = walk size step back fall a n l s := by
  induction l generalizing a n s with
  | nil => rw [List.map_nil,walkNil,walkNil]
  | cons i l ih =>
    rw [List.map_cons]
    cases n with
    | zero => simp only [walk,steps,sizes,ih]
    | succ n => simp only [walk,sizes,ih]

theorem walkOver (some_ : ∀ i ∈ block, 0 < size i) :
    walk size step back fall a (codeSize size block) block s =
      fall (a + UInt64.ofNat (codeSize size block)) 0 s := by
  induction block generalizing a with
  | nil => simp [walk,codeSize]
  | cons i block ih =>
    have positive := some_ i (by simp)
    obtain ⟨n,total⟩ : ∃ n, codeSize size (i::block) = n + 1 :=
      Nat.exists_eq_succ_of_ne_zero (by simp only [codeSize]; omega)
    have fits : size i ≤ n + 1 := by rw [← total]; simp only [codeSize]; omega
    have left : n + 1 - size i = codeSize size block := by rw [← total]; simp only [codeSize]; omega
    rw [total]
    simp only [walk,if_pos fits,left]
    rw [ih fun j member => some_ j (List.mem_cons_of_mem _ member),← total]
    simp only [codeSize,UInt64.ofNat_add,UInt64.add_assoc]

/- Where nothing comes back the first exit is the only one. -/
theorem executeWalk : execute size step (fun _ _ => none) a n l s =
    (walk size step (fun _ => none) nowhere a n l s).bind List.head? := by
  induction l generalizing a n s with
  | nil => cases n <;> simp [execute,walk,nowhere]
  | cons i l ih =>
    cases n with
    | zero =>
      cases here : step a i s with
      | next r => rw [executeNext (n := r.1) here,walkNext (n := r.1) here,ih]
      | leave e => rw [executeLeave here,walkLeave here]; rfl
    | succ n =>
      simp only [execute,walk]
      split
      · exact ih
      · rfl

end Walk

/-! Code that stands for other code, one block for each instruction. -/
section Replaced
variable {I J σ ε : Type}

inductive Outcome.Alike (alike : ε → ε → Prop) : Outcome σ ε → Outcome σ ε → Prop where
  | next {s} : Alike alike (.next s) (.next s)
  | leave {e e'} (same : alike e e') : Alike alike (.leave e) (.leave e')

theorem alikeLeave {alike : ε → ε → Prop} {e e' : ε} :
    (Outcome.leave e : Outcome σ ε).Alike alike (.leave e') ↔ alike e e' :=
  ⟨fun | .leave same => same,.leave⟩

theorem alikeRefl {alike : ε → ε → Prop} (refl : ∀ e, alike e e)
    (x : Outcome σ ε) : x.Alike alike x := by
  cases x with
  | next s => exact .next
  | leave e => exact .leave (refl e)

theorem alikeNext {alike : ε → ε → Prop} {s : σ} {y : Outcome σ ε}
    (same : (Outcome.next s).Alike alike y) : y = .next s := by
  cases same
  rfl

theorem alikeLeaves {alike : ε → ε → Prop} {e : ε} {y : Outcome σ ε}
    (same : (Outcome.leave e).Alike alike y) : ∃ e', y = .leave e' := by
  cases same
  exact ⟨_,rfl⟩

def ExitsAlike (alike : ε → ε → Prop) (x y : Option ε) : Prop := ∃ e e', x = some e ∧ y = some e' ∧
    alike e e'

variable (size : I → Nat) (meaning : I → σ → Outcome σ ε) (fall : UInt64 → σ → Option ε)
variable (size' : J → Nat) (step' : UInt64 → J → σ → Outcome (Nat × σ) ε)
    (fall' : UInt64 → σ → Option ε)
variable (expand : I → List J) (moved : UInt64 → I → σ → Outcome σ ε)

def listing : List I → List J
  | [] => []
  | i::l => expand i ++ listing l

def Stands (i : I) : Prop :=
  ∀ b l s, execute size' step' fall' b 0 (expand i ++ l) s = match moved b i s with
  | .next s => execute size' step' fall' (b + UInt64.ofNat (codeSize size' (expand i))) 0 l s
  | .leave e => some e

/- The same with calls that come back; `resume` is what the rest of the block then does. -/
def Follows (back : ε → Option σ) (resume : I → σ → σ) (i : I) : Prop :=
  ∀ fall b s, walk size' step' back fall b 0 (expand i) s = match moved b i s with
    | .next s => fall (b + UInt64.ofNat (codeSize size' (expand i))) 0 s
    | .leave e => handedOn back e fun s =>
        fall (b + UInt64.ofNat (codeSize size' (expand i))) 0 (resume i s)

/- The blocks one after the other, in terms of the instructions that they stand for. -/
def replay (back : ε → Option σ) (resume : I → σ → σ) (stop : UInt64 → σ → Option (List ε)) :
    UInt64 → List I → σ → Option (List ε)
  | b,[],s => stop b s
  | b,i::l,s => match moved b i s with
    | .next s => replay back resume stop (b + UInt64.ofNat (codeSize size' (expand i))) l s
    | .leave e => handedOn back e fun s =>
        replay back resume stop (b + UInt64.ofNat (codeSize size' (expand i))) l (resume i s)

def Placed (ok : UInt64 → I → Prop) : UInt64 → List I → Prop
  | _,[] => True
  | b,i::l => ok b i ∧ Placed ok (b + UInt64.ofNat (codeSize size' (expand i))) l

/- Something holds of every instruction that is come to, and at the end. -/
def Along (here : UInt64 → I → σ → Prop) (last : σ → Prop) : UInt64 → List I → σ → Prop
  | _,[],s => last s
  | b,i::l,s => here b i s ∧ match meaning i s with
    | .next s => Along here last (b + UInt64.ofNat (codeSize size' (expand i))) l s
    | .leave _ => True

variable {size meaning fall size' step' fall' expand moved} {alike : ε → ε → Prop}
    {here : UInt64 → I → σ → Prop} {last : σ → Prop}
variable {ok : UInt64 → I → Prop} {tail : List J} {a b : UInt64} {l : List I} {s : σ}

theorem addressHere (a : UInt64) : a + UInt64.ofNat (codeSize size ([] : List I)) = a :=
  UInt64.add_zero a

theorem addressAfter (a : UInt64) (i : I) (l : List I) :
    a + UInt64.ofNat (size i) + UInt64.ofNat (codeSize size l) =
      a + UInt64.ofNat (codeSize size (i::l)) := by
  rw [codeSize,UInt64.ofNat_add,UInt64.add_assoc]

theorem followsStands {resume : I → σ → σ} {i : I}
    (follows : Follows size' step' expand moved (fun _ => none) resume i) :
    Stands size' step' (fun _ _ => none) expand moved i := by
  intro b l s
  rw [executeWalk,walkAppend,follows _ b s]
  cases moved b i s with
  | next s => exact executeWalk.symm
  | leave e => rfl

theorem walkReplay {back : ε → Option σ} {resume : I → σ → σ}
    {fall : UInt64 → Nat → σ → Option (List ε)}
    (follows : ∀ i ∈ l, Follows size' step' expand moved back resume i) :
    walk size' step' back fall b 0 (listing expand l) s =
      replay size' expand moved back resume (fun b s => fall b 0 s) b l s := by
  induction l generalizing b s with
  | nil => simp only [listing,replay,walk]
  | cons i l ih =>
    have later := fun b s => @ih b s fun j member => follows j (List.mem_cons_of_mem _ member)
    rw [listing,walkAppend,follows i (by simp),replay]
    cases moved b i s with
    | next s => exact later _ s
    | leave e => simp only [later]

theorem replayStop {back : ε → Option σ} {resume : I → σ → σ}
    {stop stop' : UInt64 → σ → Option (List ε)}
    (same : ∀ s, stop (b + UInt64.ofNat (codeSize size' (listing expand l))) s =
      stop' (b + UInt64.ofNat (codeSize size' (listing expand l))) s) :
    replay size' expand moved back resume stop b l s =
      replay size' expand moved back resume stop' b l s := by
  induction l generalizing b s with
  | nil =>
    simp only [listing,addressHere] at same
    simp only [replay,same]
  | cons i l ih =>
    have later : ∀ s, replay size' expand moved back resume stop
        (b + UInt64.ofNat (codeSize size' (expand i))) l s =
        replay size' expand moved back resume stop' (b + UInt64.ofNat (codeSize size' (expand i))) l
          s := fun s => by
      refine ih fun s => ?_
      rw [UInt64.add_assoc,← UInt64.ofNat_add,← codeSizeAppend]
      exact same s
    simp only [replay,later]

theorem listingMember {j : J} (member : j ∈ listing expand l) : ∃ i ∈ l, j ∈ expand i := by
  induction l with
  | nil => cases member
  | cons i l ih =>
    rcases List.mem_append.mp member with here | later
    · exact ⟨i,by simp,here⟩
    · obtain ⟨i',inside,found⟩ := ih later
      exact ⟨i',List.mem_cons_of_mem _ inside,found⟩

theorem alikeAlong (stands : ∀ i, Stands size' step' fall' expand moved i)
    (placed : Placed size' expand ok b l)
    (one : ∀ b i s, ok b i → here b i s → (meaning i s).Alike alike (moved b i s))
    (ends : ∀ b s, last s →
      ExitsAlike alike (fall (a + UInt64.ofNat (codeSize size l)) s)
      (execute size' step' fall' b 0 tail s))
    (along : Along meaning size' expand here last b l s) :
    ExitsAlike alike (execute size (fun _ i s => (meaning i s).goesOn 0) fall a 0 l s)
      (execute size' step' fall' b 0 (listing expand l ++ tail) s) := by
  induction l generalizing a b s with
  | nil =>
    simp only [addressHere] at ends
    exact ends b s along
  | cons i l ih =>
    obtain ⟨now,later⟩ := along
    have outcome := one b i s placed.1 now
    rw [listing,List.append_assoc,stands i]
    generalize replaced : moved b i s = y at outcome
    generalize original : meaning i s = x at outcome later
    cases outcome with
    | next =>
      rw [executeNext (by rw [original]; rfl)]
      exact ih placed.2 (by rw [addressAfter]; exact ends) later
    | leave same =>
      rw [executeLeave (by rw [original]; rfl)]
      exact ⟨_,_,rfl,rfl,same⟩

theorem alongAlike (stands : ∀ i, Stands size' step' fall' expand moved i)
    (placed : Placed size' expand ok b l)
    (one : ∀ b i s, ok b i → (meaning i s).Alike alike (moved b i s) → here b i s)
    (goesOn : ∀ b i s s', ok b i → meaning i s = .next s' → moved b i s = .next s')
    (leaves : ∀ b i s e, ok b i → meaning i s = .leave e → ∃ e', moved b i s = .leave e')
    (ends : ∀ b s, ExitsAlike alike (fall (a + UInt64.ofNat (codeSize size l)) s)
      (execute size' step' fall' b 0 tail s) → last s)
    (same : ExitsAlike alike (execute size (fun _ i s => (meaning i s).goesOn 0) fall a 0 l s)
      (execute size' step' fall' b 0 (listing expand l ++ tail) s)) :
    Along meaning size' expand here last b l s := by
  induction l generalizing a b s with
  | nil =>
    simp only [addressHere] at ends
    exact ends b s same
  | cons i l ih =>
    have now := one b i s placed.1
    rw [listing,List.append_assoc,stands i] at same
    unfold Along
    cases original : meaning i s with
    | next s' =>
      have replaced := goesOn b i s s' placed.1 original
      rw [executeNext (by rw [original]; rfl),replaced] at same
      rw [original,replaced] at now
      exact ⟨now .next,ih placed.2 (by rw [addressAfter]; exact ends) same⟩
    | leave e =>
      obtain ⟨e',replaced⟩ := leaves b i s e placed.1 original
      rw [executeLeave (by rw [original]; rfl),replaced] at same
      rw [original,replaced] at now
      obtain ⟨x,y,first,second,agree⟩ := same
      cases Option.some.inj first
      cases Option.some.inj second
      exact ⟨now (.leave agree),trivial⟩

theorem placedBoth {ok' : UInt64 → I → Prop} (first : Placed size' expand ok b l)
    (second : Placed size' expand ok' b l) :
    Placed size' expand (fun b i => ok b i ∧ ok' b i) b l := by
  induction l generalizing b with
  | nil => trivial
  | cons i l ih => exact ⟨⟨first.1,second.1⟩,ih first.2 second.2⟩

theorem placedImp {ok' : UInt64 → I → Prop} (weaker : ∀ b i, ok b i → ok' b i)
    (placed : Placed size' expand ok b l) : Placed size' expand ok' b l := by
  induction l generalizing b with
  | nil => trivial
  | cons i l ih => exact ⟨weaker b i placed.1,ih placed.2⟩

theorem placedAll {ok' : I → Prop} (all : ∀ i ∈ l, ok' i) :
    Placed size' expand (fun _ i => ok' i) b l := by
  induction l generalizing b with
  | nil => trivial
  | cons i l ih => exact ⟨all i (by simp),ih fun j member => all j (List.mem_cons_of_mem _ member)⟩

end Replaced

/-! The places that the branches of some code name. -/
section Named
variable {I J K : Type} (size : J → Nat) (see : UInt64 → K → J → List UInt64) (learn : K → J → K)

/- `learn` follows the register that branches go through, as far as the code tells. -/
def named : UInt64 → K → List J → List UInt64
  | _,_,[] => []
  | a,k,i::l => see a k i ++ named (a + UInt64.ofNat (size i)) (learn k i) l

variable {size see learn} {a b : UInt64} {k : K} {l l' : List J}

theorem namedAppend :
    named size see learn a k (l ++ l') = named size see learn a k l ++
      named size see learn (a + UInt64.ofNat (codeSize size l)) (l.foldl learn k) l' := by
  induction l generalizing a k with
  | nil => rw [List.nil_append,addressHere]; rfl
  | cons i l ih => rw [List.cons_append,named,named,ih,addressAfter,List.append_assoc]; rfl

theorem namedMap {size' : I → Nat} {see' : UInt64 → K → I → List UInt64} {learn' : K → I → K}
    {f : I → J} {m : List I} (sizes : ∀ i, size (f i) = size' i)
    (sees : ∀ a k i, see a k (f i) = see' a k i) (learns : ∀ k i, learn k (f i) = learn' k i) :
    named size see learn a k (m.map f) = named size' see' learn' a k m := by
  induction m generalizing a k with
  | nil => rfl
  | cons i m ih => rw [List.map_cons,named,named,sizes,sees,learns,ih]

/- Where a block names the same places whatever is known before it. -/
theorem namedListing {expand : I → List J} {names : UInt64 → I → List UInt64} {m : List I}
    {P : UInt64 → Prop}
    (block : ∀ i b k, named size see learn b k (expand i) = names b i) :
    (∀ t ∈ named size see learn b k (listing expand m), P t) ↔
      Placed size expand (fun b i => ∀ t ∈ names b i, P t) b m := by
  induction m generalizing b k with
  | nil => simp [listing,named,Placed]
  | cons i m ih =>
    rw [listing,namedAppend,List.forall_mem_append,block,ih]
    rfl

end Named

end ZeroTrace.CodeListing
