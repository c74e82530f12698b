import MyMisu.Lib.TransitionSystem
import MyMisu.Lib.WhileLoop
import MyMisu.Lib.ParentTree
import MyMisu.Fs.Api
import MyMisu.Fs.Calls
import MyMisu.Fs.TreeInvariant
import MyMisu.Fs.Atomicity
import MyMisu.Fs.Descriptors
import MyMisu.Fs.TreeModel
import MyMisu.Fs.Refinement
import MyMisu.Lib.Bitmap
import MyMisu.Pmm.MemoryMap
import MyMisu.Pmm.FreedPages
import MyMisu.Pmm.Accounting
import MyMisu.Pmm.FreeReport
import MyMisu.Process.Machine
import MyMisu.Process.Table
import MyMisu.Process.Steps
import MyMisu.Process.Ownership
import MyMisu.Process.InterruptFlag
import MyMisu.Process.Stacks
import MyMisu.Pmm.AllocSafety
import MyMisu.Fs.Bounds
import MyMisu.Fs.Agreement
import MyMisu.Fs.SlotReuse
import MyMisu.Fs.Append
import MyMisu.Fs.ReadBack
import MyMisu.Fs.Seek
import MyMisu.Lib.Words
import MyMisu.Fs.Paths
import MyMisu.Lib.FirstFit
import MyMisu.Fs.Listing
import MyMisu.Shell.FileBrowser
import MyMisu.Lib.TreeWalk
import MyMisu.Lib.Decimal
import MyMisu.Numbers
import MyMisu.Shell.Commands
import MyMisu.Shell.Tree
import MyMisu.Shell.Arguments
import MyMisu.Shell.Write
import MyMisu.Shell.Edit
import MyMisu.Keyboard.Queue
import MyMisu.Vga.Page
import MyMisu.Lib.RoundRobin
import MyMisu.Process.Fairness
import MyMisu.Process.StackLedger
import MyMisu.Process.Sleep
import MyMisu.Process.Interleaving
import MyMisu.Process.Statements
import MyMisu.Process.Serials
import MyMisu.Process.Orderly
import MyMisu.Process.TimerSafety
import MyMisu.Process.Pids
import MyMisu.Lib.WordMemory
import MyMisu.Lib.X86
import MyMisu.Process.ContextSwitch
import MyMisu.Syscall.Api
import MyMisu.Syscall.Results
import MyMisu.Interrupt.Int80
import MyMisu.Process.LostWakeup
import MyMisu.Process.Publication
import MyMisu.Keyboard.State
import MyMisu.Interrupt.Idt
import MyMisu.Interrupt.Dispatch
import MyMisu.Interrupt.Return
import MyMisu.Shell.Calculator
import MyMisu.Shell.Kill
import MyMisu.Klog
import MyMisu.Keyboard.Shift
import MyMisu.Vga.Backspace
import MyMisu.Shell.Field
import MyMisu.Shell.Login
import MyMisu.Lib.Paging
import MyMisu.Shell.Reader
import MyMisu.Shell.ReaderPages
import MyMisu.Shell.Tokenizer
import MyMisu.Shell.LineEditor
import MyMisu.Shell.TokenizerLoop
import MyMisu.Shell.Uptime
import MyMisu.Shell.Top
import MyMisu.Pmm.Termination
import MyMisu.Shell.Snake
import MyMisu.Shell.TicTacToe
import MyMisu.Shell.Session
import MyMisu.Shell.Games
import MyMisu.Lib.Descriptors
import MyMisu.Interrupt.Gdt
import MyMisu.Vga.Pager
import MyMisu.Lib.Replies
import MyMisu.Fs.OpenFiles
import MyMisu.Fs.OpenRefinement
import MyMisu.Process.Latency
import MyMisu.Lib.Transducer
import MyMisu.Keyboard.Typing
import MyMisu.Process.Parked
import MyMisu.Process.StackLayout
import MyMisu.Process.Cores
import MyMisu.System
import MyMisu.Lib.Pic8259
import MyMisu.Interrupt.Pic
import MyMisu.Process.CpuTime
import MyMisu.Lib.Hexadecimal
import MyMisu.Kprintf
