import Osdev2.I386.Terminal
import Osdev2.I386.Bounds
import Osdev2.Libk.Render
import Osdev2.Libk.Arguments
import Osdev2.Libk.Overread
import Osdev2.Libk.Wide
import Osdev2.Libk.Split
import Osdev2.Libk.Subject
import Osdev2.Libk.Search
import Osdev2.Libk.Order
import Osdev2.Libk.Copies
import Osdev2.Kernel.Journal
import Osdev2.Kernel.Uses
import Osdev2.I386.Clear
import Osdev2.I386.Boot
import Osdev2.I386.Screen
import Osdev2.I386.Rows
import Osdev2.I386.Lookups
import Osdev2.I386.Pic
import Osdev2.I386.Progress
import Osdev2.I386.Exception
import Osdev2.Aarch64.Boot
import Osdev2.Aarch64.Exception
import Osdev2.Efi.Propagate
import Osdev2.Efi.Acpi
import Osdev2.Efi.Ledger
import Osdev2.Efi.Rebase
import Osdev2.Aarch64.Report
import Osdev2.Aarch64.Transmit
import Osdev2.I386.A20
import Osdev2.Kernel.Session
