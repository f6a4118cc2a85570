import MyOS.Diskfs.Recovery
import MyOS.Pmm.FirstFit
import MyOS.Pmm.Initialize
import MyOS.Heap.Release
import MyOS.Heap.DoubleFree
import MyOS.Heap.Aligned
import MyOS.Paging.Exact
import MyOS.User.Table
import MyOS.User.Formats
import MyOS.User.Elf
import MyOS.User.Files
import MyOS.User.Syscall
import MyOS.Sched.Run
import MyOS.Input.Keyboard
import MyOS.Input.Motion
import MyOS.Input.Loop
import MyOS.Gui.Restore
import MyOS.Gui.Focus
import MyOS.Gui.Click
import MyOS.Graphics.FillRect
import MyOS.Assets.Load
import MyOS.Gui.TerminalErase
import MyOS.Gui.TerminalHistory
import MyOS.Shell.Decimal
import MyOS.Gui.Notepad
