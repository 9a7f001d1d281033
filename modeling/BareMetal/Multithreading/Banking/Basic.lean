import BareMetal.CS.Block
import BareMetal.CS.Chains
import BareMetal.CS.Text
import BareMetal.CS.Transition

/-!
# The bank of `multithreading/banking.c`

Branches are appended to the chain of the bucket that the hash of their id selects.
A branch keeps the two ends of the list of its accounts; a new account goes to the
tail and takes the id after the one of the old tail. Customers and branches are found
by walks that compare names.

`Ledger` says what the bank stands for: the branches in the order in which they were
added, and for each branch its accounts in the order in which they were opened.
Branches and accounts are named by their addresses.
-/

namespace BareMetal.Banking

open CS Transition LinkedList

/-- `BANK_BRANCH_CAPACITY`. -/
abbrev bankBranchCapacity : ℕ := 5

/-- `Account`, with the name of its customer and without the pointer to the next one. -/
structure Account where
  customer : CString
  balance : Int32
  id : UInt32
  info : UInt8
  deriving DecidableEq, Repr

/-- `account->balance += amt`: the sum is an unsigned one, converted back to an `int`. -/
def Account.credit (account : Account) (amt : UInt32) : Account :=
  { account with balance := account.balance + amt.toInt32 }

/-- `Branch`, without the pointer to the next one. -/
structure Branch where
  branchId : CString
  accounts : Ends
  deriving DecidableEq, Repr

/-- `Bank`, with the heaps that its branches and their accounts are on. -/
structure Bank where
  branches : Block bankBranchCapacity (Option ℕ)
  branchCount : UInt8
  capacity : UInt8
  branchHeap : Heap Branch
  accountHeap : Heap Account

/-- `BIT`. -/
def bit (x : UInt8) : UInt8 := 1 <<< x

/-- `CUS_INFO_DEF_MASK`. -/
def cusInfoDefMask : UInt8 := 0x00

/-- `PREMIUM_BIT`. -/
def premiumBit : UInt8 := 3

/-- `hash_function`. -/
def hashFunction (key : CString) (capacity : ℤ) : Outcome ℤ := charHash key capacity

/-- `uint8_t idx = hash_function(…)`. -/
def branchIdx (key : CString) (capacity : ℤ) : Outcome UInt8 := do
  let hash ← hashFunction key capacity
  .ok (UInt8.ofInt hash)

/-- `init_bank`. -/
def initBank : Bank :=
  ⟨fun _ => none, 0, UInt8.ofNat bankBranchCapacity, fun _ => none, fun _ => none⟩

/-- `add_branch`, at the address that `calloc` returns. -/
def addBranch (bank : Bank) (newBranch : ℕ) (branchName : CString) (fuel : ℕ) :
    Outcome Bank := do
  let branchHeap := bank.branchHeap.alloc newBranch ⟨branchName, ⟨none, none⟩⟩
  let idx ← branchIdx branchName bank.capacity.toNat
  let bucket ← bank.branches.load idx.toNat
  let (branchHeap, bucket) ← linkLast branchHeap bucket newBranch fuel
  let branches ← bank.branches.store idx.toNat bucket
  .ok { bank with
    branches := branches, branchCount := bank.branchCount + 1, branchHeap := branchHeap }

/-- `find`: the first branch of the bucket is looked at twice. -/
def find (bank : Bank) (branchId : CString) (fuel : ℕ) : Outcome (Option ℕ) := do
  let idx ← branchIdx branchId bankBranchCapacity
  match ← bank.branches.load idx.toNat with
  | none => .ok none
  | some first => do
    let node ← bank.branchHeap.load (some first)
    if node.value.branchId = branchId then .ok (some first)
    else seek bank.branchHeap (fun branch => branch.branchId == branchId) (some first) fuel

/-- The account that `open_account` fills in, all but its id. -/
def newAccount (customerName : CString) (isPremium : Bool) (id : UInt32) : Account :=
  if isPremium then ⟨customerName, 100, id, 0 ||| bit premiumBit⟩
  else ⟨customerName, 0, id, cusInfoDefMask⟩

/-- The id of the next account of a branch: one more than the one of the tail. -/
def nextId (bank : Bank) (ends : Ends) : Outcome UInt32 :=
  match ends.head with
  | none => .ok 1
  | some _ => do
    let tail ← bank.accountHeap.load ends.tail
    .ok (tail.value.id + 1)

/-- `open_account` once it has found its branch. -/
def openIn (bank : Bank) (account selectBranch : ℕ) (customerName : CString)
    (isPremium : Bool) : Outcome Bank := do
  let branch ← bank.branchHeap.load (some selectBranch)
  let id ← nextId bank branch.value.accounts
  let accountHeap := bank.accountHeap.alloc account (newAccount customerName isPremium id)
  let (accountHeap, ends) ← insertLast accountHeap branch.value.accounts account
  let branchHeap ← bank.branchHeap.store (some selectBranch)
    { branch with value := { branch.value with accounts := ends } }
  .ok { bank with branchHeap := branchHeap, accountHeap := accountHeap }

/-- `open_account`, at the address that `calloc` returns for the account. -/
def openAccount (bank : Bank) (account : ℕ) (branchId customerName : CString) (isPremium : Bool)
    (fuel : ℕ) : Outcome Bank := do
  match ← find bank branchId fuel with
  | none => .error (.exit 1 s!"Could not find branch id: {branchId.toText}\n")
  | some selectBranch => openIn bank account selectBranch customerName isPremium

/-- `find_customer`. The outer loop ends in its first pass: `found` is set only where the
function returns. -/
def findCustomer (bank : Bank) (branchId customerName : CString) (fuel : ℕ) :
    Outcome (Option ℕ) := do
  match ← find bank branchId fuel with
  | none => .error (.exit 1 s!"Could not find branch id: {branchId.toText}\n")
  | some current => do
    let branch ← bank.branchHeap.load (some current)
    seek bank.accountHeap (fun account => account.customer == customerName)
      branch.value.accounts.head fuel

/-- `deposit`. The message for an unknown customer reads the name of a null pointer. -/
def deposit (bank : Bank) (branchId customerName : CString) (amt : UInt32) (fuel : ℕ) :
    Outcome Bank := do
  let account ← findCustomer bank branchId customerName fuel
  let node ← bank.accountHeap.load account
  let accountHeap ← bank.accountHeap.store account
    { node with value := node.value.credit amt }
  .ok { bank with accountHeap := accountHeap }

/-! ### Runs -/

/-- A call with its arguments and the address of what it allocates. -/
inductive Call
  | addBranch (newBranch : ℕ) (branchName : CString)
  | openAccount (account : ℕ) (branchId customerName : CString) (isPremium : Bool)
  | deposit (branchId customerName : CString) (amt : UInt32)
  deriving DecidableEq, Repr

/-- A call that returns. -/
inductive Step (s : Bank) : Call → Bank → Prop
  | addBranch {newBranch fuel : ℕ} {branchName : CString} {s' : Bank}
      (hfree : s.branchHeap newBranch = none)
      (hcall : Banking.addBranch s newBranch branchName fuel = .ok s') :
      Step s (.addBranch newBranch branchName) s'
  | openAccount {account fuel : ℕ} {branchId customerName : CString} {isPremium : Bool} {s' : Bank}
      (hfree : s.accountHeap account = none)
      (hcall : Banking.openAccount s account branchId customerName isPremium fuel = .ok s') :
      Step s (.openAccount account branchId customerName isPremium) s'
  | deposit {fuel : ℕ} {branchId customerName : CString} {amt : UInt32} {s' : Bank}
      (hcall : Banking.deposit s branchId customerName amt fuel = .ok s') :
      Step s (.deposit branchId customerName amt) s'

/-- Sequences of calls on a new bank. -/
def system : System Bank Call where
  start s := s = initBank
  step s e s' := Step s e s'

/-! ### What the bank stands for -/

/-- The branches in the order in which they were added, and the accounts of each branch in
the order in which they were opened. -/
structure Ledger where
  branches : List (ℕ × CString)
  accounts : ℕ → List (ℕ × Account)

namespace Ledger

variable (ledger : Ledger) (branchId customerName : CString)

/-- The first branch with the given id. -/
def findBranch : Option ℕ := LinkedList.find (fun id => id == branchId) ledger.branches

/-- The first account of the branch `b` whose customer has the given name. -/
def findAccount (b : ℕ) : Option ℕ :=
  LinkedList.find (fun account => account.customer == customerName) (ledger.accounts b)

/-- A branch without accounts, behind the others. -/
def addBranch (newBranch : ℕ) : Ledger :=
  { ledger with branches := ledger.branches ++ [(newBranch, branchId)] }

/-- An account behind the others of the branch `b`. Its id is its number in the branch. -/
def openAccount (account b : ℕ) (isPremium : Bool) : Ledger :=
  { ledger with
    accounts := Function.update ledger.accounts b (ledger.accounts b ++
      [(account,
        newAccount customerName isPremium (UInt32.ofNat ((ledger.accounts b).length + 1)))]) }

/-- More money on the account `a`. -/
def deposit (a : ℕ) (amt : UInt32) : Ledger :=
  { ledger with
    accounts := fun b => (ledger.accounts b).map fun node =>
      if node.1 = a then (a, node.2.credit amt) else node }

/-- What a call does to the ledger. -/
def apply : Call → Ledger
  | .addBranch newBranch branchName => ledger.addBranch branchName newBranch
  | .openAccount account branchId customerName isPremium =>
    match ledger.findBranch branchId with
    | none => ledger
    | some b => ledger.openAccount customerName account b isPremium
  | .deposit branchId customerName amt =>
    match (ledger.findBranch branchId).bind (ledger.findAccount customerName) with
    | none => ledger
    | some a => ledger.deposit a amt

end Ledger

/-- The ledger of a sequence of calls. -/
def ledger (calls : List Call) : Ledger := calls.foldl Ledger.apply ⟨[], fun _ => []⟩

end BareMetal.Banking
